import Foundation.Sanity.Balance
import Foundation.Sanity.Snapshots

/-! The index cells of a partition through a batch. A property of one cell, that is of its
published snapshot, the change collected so far and the live records listed in it, holds of
all cells after a mutation if it survives one removal and one addition. -/

namespace Foundation.Hermes

open Go IndexSnapshot

theorem forEachIndexedField_nodup (rec : DomainRecord) {spec : ProjectionSpec}
    (h : spec.indexedFields.Nodup) :
    (forEachIndexedField rec spec).Nodup := by
  unfold forEachIndexedField
  refine h.filterMap fun a a' x hx hx' => ?_
  simp only [Option.mem_def, Option.bind_eq_some_iff, Option.map_eq_some_iff] at hx hx'
  obtain ⟨_, -, _, -, rfl⟩ := hx
  obtain ⟨_, -, _, -, heq⟩ := hx'
  exact (congrArg QueryFilter.field heq).symm

theorem indexKeysOf_nodup (spec : NormalSpec) (rec : DomainRecord) :
    (indexKeysOf spec.toProjectionSpec rec).Nodup := by
  unfold indexKeysOf
  rw [List.nodup_cons]
  refine ⟨by simp, (forEachIndexedField_nodup rec spec.indexed_nodup).map fun a a' heq => ?_⟩
  cases heq
  rfl

namespace IndexPublisher

variable (p : IndexPublisher) (cells : List IndexKey) (cell : IndexKey)

theorem change_insert (c : IndexChange) (cell' : IndexKey) :
    IndexPublisher.change (p.insert cell' c) cell = if cell = cell' then c else p.change cell := by
  unfold change
  rw [GoMap.lookup_insert_if]
  split_ifs <;> rfl

theorem change_foldl (f : IndexChange → IndexChange) (hn : cells.Nodup) :
    IndexPublisher.change
      (cells.foldl (fun p cell => p.insert cell (f (IndexPublisher.change p cell))) p) cell =
      if cell ∈ cells then f (p.change cell) else p.change cell := by
  induction cells generalizing p with
  | nil => rfl
  | cons head rest ih =>
    rw [List.nodup_cons] at hn
    rw [List.foldl_cons, ih _ hn.2, change_insert]
    by_cases hc : cell = head
    · subst hc
      rw [if_neg hn.1, if_pos rfl, if_pos List.mem_cons_self]
    · rw [if_neg hc]
      by_cases hm : cell ∈ rest
      · rw [if_pos hm, if_pos (List.mem_cons_of_mem _ hm)]
      · rw [if_neg hm, if_neg fun h => (List.mem_cons.mp h).elim hc hm]

end IndexPublisher

variable {key : String}

namespace Batch

variable (b : Batch)

/-- The cells a record of the projection is listed in. -/
def cellsOf (rec : DomainRecord) : List IndexKey := indexKeysOf b.part.spec.toProjectionSpec rec

/-- Whether the live entry of a key is listed in a cell. -/
def InCell (cell : IndexKey) (key : String) : Prop :=
  ∃ e, b.entry key = some e ∧ cell ∈ b.cellsOf e.record

/-- The live keys of a cell, with the versions of their entries. -/
def Members (cell : IndexKey) (live : GoMap String ℕ) : Prop :=
  ∀ key version, live.lookup key = some version ↔
    ∃ e, b.entry key = some e ∧ cell ∈ b.cellsOf e.record ∧ e.version = version

variable {b} {cell : IndexKey} {live : GoMap String ℕ}

theorem cellsOf_congr {b' : Batch} (h : b'.part.spec = b.part.spec) (rec : DomainRecord) :
    b'.cellsOf rec = b.cellsOf rec := by
  rw [cellsOf, cellsOf, h]

theorem Members.mem_keys (h : b.Members cell live) (key : String) :
    key ∈ live.keys ↔ b.InCell cell key := by
  rw [GoMap.mem_keys_iff]
  constructor
  · rintro ⟨version, hl⟩
    obtain ⟨e, he, hc, -⟩ := (h key version).mp hl
    exact ⟨e, he, hc⟩
  · rintro ⟨e, he, hc⟩
    exact ⟨e.version, (h key e.version).mpr ⟨e, he, hc, rfl⟩⟩

theorem mem_cells_scope (hk : b.Keyed) {e : RecordEntry} (he : b.entry key = some e)
    (org : String) :
    .scope ⟨b.part.spec.domain, b.part.spec.collection, org⟩ ∈ b.cellsOf e.record ↔
      e.record.organizationID = org := by
  have hn := hk.normal key e he
  rw [Batch.cellsOf, indexKeysOf, scopeKey, hn.domain_trim, hn.collection_trim,
    hn.organizationID_trim,
    hk.domain_eq key e he, hk.collection_eq key e he]
  simp [eq_comm]

theorem mem_cells_field (hk : b.Keyed) {e : RecordEntry} (he : b.entry key = some e) (org : String)
    {filter : QueryFilter} (hf : filter.field ∈ b.part.spec.indexedFields) :
    .field ⟨⟨b.part.spec.domain, b.part.spec.collection, org⟩, filter⟩ ∈ b.cellsOf e.record ↔
      e.record.organizationID = org ∧ matchesFilter e.record.data filter = true := by
  have hn := hk.normal key e he
  have hmatch : filter ∈ forEachIndexedField e.record b.part.spec.toProjectionSpec ↔
      matchesFilter e.record.data filter = true := by
    unfold forEachIndexedField matchesFilter
    rw [List.mem_filterMap]
    constructor
    · rintro ⟨field, -, h⟩
      simp only [Option.bind_eq_some_iff, Option.map_eq_some_iff] at h
      obtain ⟨value, hget, ⟨kind, text⟩, hscalar, rfl⟩ := h
      dsimp only
      rw [hget]
      simp [hscalar]
    · intro h
      refine ⟨filter.field, hf, ?_⟩
      cases hget : e.record.data.get filter.field with
      | none => rw [hget] at h; cases h
      | some value =>
        rw [hget] at h
        rw [Option.bind_some, beq_iff_eq.mp h]
        rfl
  rw [Batch.cellsOf, indexKeysOf, scopeKey, hn.domain_trim, hn.collection_trim,
    hn.organizationID_trim,
    hk.domain_eq key e he, hk.collection_eq key e he, ← hmatch]
  simp [eq_comm, and_comm]

/-- The changes once the entry of a key is withdrawn from its cells. -/
theorem withdraw_change (key : String) (old : RecordEntry) (cell : IndexKey) :
    (b.removeIndexesLocked key old.record).publisher.change cell =
      if cell ∈ b.cellsOf old.record then (b.publisher.change cell).remove key
      else b.publisher.change cell :=
  IndexPublisher.change_foldl b.publisher _ cell (fun c => c.remove key) (indexKeysOf_nodup _ _)

theorem addIndexes_change {b' : Batch} (h : b'.part.spec = b.part.spec) (key : String)
    (rec : DomainRecord) (version : ℕ) (cell : IndexKey) :
    (b'.addIndexesLocked key rec version).publisher.change cell =
      if cell ∈ b.cellsOf rec then (b'.publisher.change cell).add ⟨key, version⟩
      else b'.publisher.change cell := by
  rw [cellsOf, ← h]
  exact IndexPublisher.change_foldl b'.publisher _ cell (fun c => c.add ⟨key, version⟩)
    (indexKeysOf_nodup _ _)

/-- The change of a cell after the entry of a key, if it has one there, has left it. -/
def left (b : Batch) (key : String) (cell : IndexKey) : IndexChange :=
  match b.entry key with
  | some old =>
    if cell ∈ b.cellsOf old.record then (b.publisher.change cell).remove key
    else b.publisher.change cell
  | none => b.publisher.change cell

theorem bury_change (key source : String) (version : ℕ) (cell : IndexKey) :
    (b.bury key source version).publisher.change cell = b.left key cell := by
  unfold bury left
  cases b.entry key with
  | none => rfl
  | some old => exact withdraw_change key old cell

theorem store_change (entry : RecordEntry) (cell : IndexKey) :
    (b.store entry).publisher.change cell =
    if cell ∈ b.cellsOf entry.record then
      (b.left (keyOf entry.record) cell).add ⟨keyOf entry.record, entry.version⟩
    else b.left (keyOf entry.record) cell := by
  unfold store storeEntry left
  cases b.entry (keyOf entry.record) with
  | none =>
    dsimp only
    rw [addIndexes_change (b := b) (by rfl)]
  | some old =>
    dsimp only
    rw [addIndexes_change (b := b) (by dsimp only [removeIndexesLocked])]
    have hleft := withdraw_change (b := b) (keyOf entry.record) old cell
    dsimp only [IndexPublisher.change] at hleft ⊢
    rw [hleft]

/-! ### Properties of every cell -/

/-- A property of every cell: its snapshot, its change and its live keys. -/
def CellInv (I : IndexKey → IndexSnapshot → IndexChange → GoMap String ℕ → Prop) (b : Batch) :
    Prop :=
  ∀ cell, ∃ live, b.Members cell live ∧
    I cell (b.part.registry.indexes cell) (b.publisher.change cell) live

variable {I : IndexKey → IndexSnapshot → IndexChange → GoMap String ℕ → Prop}

theorem erase_eq_self {keys : GoMap String ℕ} (h : key ∉ keys.keys) : keys.erase key = keys :=
  Finmap.ext_lookup fun k => by
    rw [GoMap.lookup_erase_if]
    split_ifs with hk
    · rw [hk]
      exact (Finmap.lookup_eq_none.mpr fun hm => h (Finmap.mem_keys.mpr hm)).symm
    · rfl

theorem CellInv.left (h : CellInv I b) (key : String)
    (hremove : ∀ cell live, b.Members cell live → key ∈ live.keys →
      I cell (b.part.registry.indexes cell) (b.publisher.change cell) live →
      I cell (b.part.registry.indexes cell) ((b.publisher.change cell).remove key) (live.erase key))
    (cell : IndexKey) :
    ∃ live, b.Members cell live ∧
      I cell (b.part.registry.indexes cell) (b.left key cell) (live.erase key) := by
  obtain ⟨live, hlive, hi⟩ := h cell
  refine ⟨live, hlive, ?_⟩
  by_cases hin : b.InCell cell key
  · obtain ⟨old, hold, hcell⟩ := hin
    rw [Batch.left, hold]
    dsimp only
    rw [if_pos hcell]
    exact hremove cell live hlive ((hlive.mem_keys key).mpr ⟨old, hold, hcell⟩) hi
  · have hsame : b.left key cell = b.publisher.change cell := by
      unfold Batch.left
      cases hold : b.entry key with
      | none => rfl
      | some old => exact if_neg fun hcell => hin ⟨old, hold, hcell⟩
    rw [hsame, erase_eq_self fun hk => hin ((hlive.mem_keys key).mp hk)]
    exact hi

theorem CellInv.bury (h : CellInv I b)
    (hremove : ∀ cell live, b.Members cell live → key ∈ live.keys →
      I cell (b.part.registry.indexes cell) (b.publisher.change cell) live →
      I cell (b.part.registry.indexes cell) ((b.publisher.change cell).remove key) (live.erase key))
    (source : String) (version : ℕ) : CellInv I (b.bury key source version) := by
  intro cell
  obtain ⟨live, hlive, hi⟩ := h.left key hremove cell
  refine ⟨live.erase key, fun k v => ?_, by rw [bury_indexes, bury_change]; exact hi⟩
  rw [GoMap.lookup_erase_if, bury_entry]
  split_ifs
  · simp
  · rw [hlive k v]
    simp only [cellsOf_congr (b.bury_spec _ _ _)]

theorem CellInv.store (h : CellInv I b) {entry : RecordEntry}
    (hremove : ∀ cell live, b.Members cell live → keyOf entry.record ∈ live.keys →
      I cell (b.part.registry.indexes cell) (b.publisher.change cell) live →
      I cell (b.part.registry.indexes cell) ((b.publisher.change cell).remove (keyOf entry.record))
        (live.erase (keyOf entry.record)))
    (hadd : ∀ cell c live, cell ∈ b.cellsOf entry.record → keyOf entry.record ∉ live.keys →
      I cell (b.part.registry.indexes cell) c live →
      I cell (b.part.registry.indexes cell) (c.add ⟨keyOf entry.record, entry.version⟩)
        (live.insert (keyOf entry.record) entry.version)) : CellInv I (b.store entry) := by
  intro cell
  obtain ⟨live, hlive, hi⟩ := h.left (keyOf entry.record) hremove cell
  have hmem : ∀ k v, (live.erase (keyOf entry.record)).lookup k = some v ↔ k ≠ keyOf entry.record ∧
      ∃ e, b.entry k = some e ∧ cell ∈ b.cellsOf e.record ∧ e.version = v := fun k v => by
    rw [GoMap.lookup_erase_if, ← hlive k v]
    split_ifs with hk
    · simp [hk]
    · simp [hk]
  have hspec := b.store_spec entry
  by_cases hcell : cell ∈ b.cellsOf entry.record
  · refine ⟨(live.erase (keyOf entry.record)).insert (keyOf entry.record) entry.version,
      fun k v => ?_, ?_⟩
    · rw [GoMap.lookup_insert_if, store_entry]
      split_ifs with hk
      · simp [cellsOf_congr hspec, hcell]
      · rw [hmem]
        simp [hk, cellsOf_congr hspec]
    · rw [store_indexes, store_change, if_pos hcell]
      refine hadd cell _ _ hcell (fun hk => ?_) hi
      rw [Finmap.keys_erase] at hk
      exact (Finset.mem_erase.mp hk).1 rfl
  · refine ⟨live.erase (keyOf entry.record), fun k v => ?_, ?_⟩
    · rw [hmem, store_entry]
      by_cases hk : k = keyOf entry.record
      · simp [hk, cellsOf_congr hspec, hcell]
      · simp [hk, cellsOf_congr hspec]
    · rw [store_indexes, store_change, if_neg hcell]
      exact hi

theorem Members.congr {b' : Batch} (h : b.Members cell live) (hs : b'.part.spec = b.part.spec)
    (he : ∀ key, b'.entry key = b.entry key) : b'.Members cell live := fun key version => by
  rw [h key version, he]
  simp only [cellsOf_congr hs]

theorem CellInv.congr {b' : Batch} (h : CellInv I b) (hs : b'.part.spec = b.part.spec)
    (he : ∀ key, b'.entry key = b.entry key)
    (hi : b'.part.registry.indexes = b.part.registry.indexes) (hp : b'.publisher = b.publisher) :
    CellInv I b' := fun cell => by
  obtain ⟨live, hlive, hinv⟩ := h cell
  exact ⟨live, hlive.congr hs he, by rw [hi, hp]; exact hinv⟩

theorem CellInv.remember (h : CellInv I b) (source : String) (version : ℕ) :
    CellInv I (b.remember source version) :=
  h.congr (remember_spec _ _ _) (fun _ => remember_entry _ _ _ _)
    (by rw [Batch.remember, Partition.rememberAppliedLocked_registry]) rfl

theorem CellInv.observe (h : CellInv I b) (version : ℕ) : CellInv I (b.observe version) :=
  h.congr rfl (fun _ => rfl) rfl rfl

end Batch

/-! ### Publishing -/

theorem publish_cell (p : IndexPublisher) (indexes : IndexKey → IndexSnapshot) (cell : IndexKey) :
    p.publish indexes cell = publishCell (indexes cell) (p.change cell) ∨
      (p.publish indexes cell = indexes cell ∧ p.change cell = {}) := by
  unfold IndexPublisher.publish IndexPublisher.change
  cases p.lookup cell with
  | none => exact .inr ⟨rfl, rfl⟩
  | some c => exact .inl rfl

variable {I : IndexKey → IndexSnapshot → IndexChange → GoMap String ℕ → Prop}

/-- Published cells have the property once more, with nothing collected. -/
theorem publish_cellInv {b b' : Batch} (h : b.CellInv I)
    (hpublish : ∀ cell s c live, I cell s c live → I cell (publishCell s c) {} live)
    (hs : b'.part.spec = b.part.spec) (he : ∀ key, b'.entry key = b.entry key)
    (hi : b'.part.registry.indexes = b.publisher.publish b.part.registry.indexes)
    (hp : b'.publisher = ∅) :
    b'.CellInv I := by
  intro cell
  obtain ⟨live, hlive, hinv⟩ := h cell
  refine ⟨live, hlive.congr hs he, ?_⟩
  rw [hi, hp]
  rcases publish_cell b.publisher b.part.registry.indexes cell with heq | ⟨heq, hnone⟩
  · rw [heq]
    exact hpublish cell _ _ live hinv
  · rw [heq]
    rw [hnone] at hinv
    exact hinv

theorem unpublished_cellInv {b b' : Batch} (h : b.CellInv I)
    (hdrop : ∀ cell live, I cell (b.part.registry.indexes cell) (b.publisher.change cell) live →
      I cell (b.part.registry.indexes cell) {} live)
    (hs : b'.part.spec = b.part.spec) (he : ∀ key, b'.entry key = b.entry key)
    (hi : b'.part.registry.indexes = b.part.registry.indexes) (hp : b'.publisher = ∅) :
    b'.CellInv I := by
  intro cell
  obtain ⟨live, hlive, hinv⟩ := h cell
  refine ⟨live, hlive.congr hs he, ?_⟩
  rw [hi, hp]
  exact hdrop cell live hinv

theorem Progress.finish_cellInv {w : Progress} (h : w.batch.CellInv I)
    (hpublish : ∀ cell s c live, I cell s c live → I cell (publishCell s c) {} live)
    (hdrop : w.result.applied = 0 → ∀ cell live,
      I cell (w.batch.part.registry.indexes cell) (w.batch.publisher.change cell) live →
      I cell (w.batch.part.registry.indexes cell) {} live) :
    w.finishApplyLocked.part.idle.CellInv I := by
  by_cases happ : 0 < w.result.applied
  · refine publish_cellInv h hpublish (Progress.finish_spec w) (Progress.finish_entry w) ?_ rfl
    rw [Partition.idle, Progress.finishApplyLocked, if_pos happ]
  · refine unpublished_cellInv h (hdrop (Nat.eq_zero_of_not_pos happ)) (Progress.finish_spec w)
      (Progress.finish_entry w) ?_ rfl
    rw [Partition.idle, Progress.finishApplyLocked, if_neg happ]

theorem Partition.bulkSwap_cellInv {p : Partition} {load : BulkState} (hi : BulkInv p.spec load)
    (h : load.batch.CellInv I)
    (hpublish : ∀ cell s c live, I cell s c live → I cell (publishCell s c) {} live)
    (hdrop : load.result.applied = 0 → ∀ cell live,
      I cell (load.batch.part.registry.indexes cell) (load.batch.publisher.change cell) live →
      I cell (load.batch.part.registry.indexes cell) {} live) :
    (p.bulkSwap load).idle.CellInv I := by
  by_cases happ : 0 < load.result.applied
  · refine publish_cellInv h hpublish hi.spec_eq.symm (p.bulkSwap_entry load) ?_ rfl
    rw [Partition.idle, Partition.bulkSwap, Partition.publishBulk, if_pos happ]
  · refine unpublished_cellInv h (hdrop (Nat.eq_zero_of_not_pos happ)) hi.spec_eq.symm
      (p.bulkSwap_entry load) ?_ rfl
    rw [Partition.idle, Partition.bulkSwap, Partition.publishBulk, if_neg happ]

/-! ### Covering -/

/-- The cell's snapshot covers what the change turns into the live keys. -/
def Covering (_ : IndexKey) (s : IndexSnapshot) (c : IndexChange) (live : GoMap String ℕ) : Prop :=
  ∃ before, Covers s before ∧ c.Turns (len s) before live

def Batch.Unadded (b : Batch) : Prop := ∀ cell, (b.publisher.change cell).adds = ∅

theorem covering_publish (cell : IndexKey) (s : IndexSnapshot) (c : IndexChange)
    (live : GoMap String ℕ) (h : Covering cell s c live) :
    Covering cell (publishCell s c) {} live := by
  obtain ⟨before, hs, ht⟩ := h
  exact ⟨live, ht.covers hs, .start (ht.covers hs).card_le⟩

theorem covering_drop {b : Batch} (h : b.Unadded) (cell : IndexKey) (live : GoMap String ℕ)
    (hc : Covering cell (b.part.registry.indexes cell) (b.publisher.change cell) live) :
    Covering cell (b.part.registry.indexes cell) {} live := by
  obtain ⟨before, hs, ht⟩ := hc
  have hlive := hs.mono (ht.within (h cell))
  exact ⟨live, hlive, .start hlive.card_le⟩

namespace Batch

variable {b b' : Batch} {m : AppliedMutation}

theorem covering_store (h : b.CellInv Covering) (entry : RecordEntry) :
    (b.store entry).CellInv Covering :=
  h.store (fun _ _ _ hk ⟨before, hs, ht⟩ => ⟨before, hs, ht.remove hk⟩)
    fun _ _ _ _ hk ⟨before, hs, ht⟩ => ⟨before, hs, ht.add hk _⟩

theorem covering_mutates (h : b.CellInv Covering) (hm : b.Mutates m b') : b'.CellInv Covering := by
  cases hm with
  | store entry => exact covering_store h entry
  | bury source =>
    exact h.bury (fun _ _ _ hk ⟨before, hs, ht⟩ => ⟨before, hs, ht.remove hk⟩) source m.version

theorem unadded_bury (h : b.Unadded) (key source : String) (version : ℕ) :
    (b.bury key source version).Unadded := by
  intro cell
  rw [bury_change, left]
  have hrem : ∀ c : IndexChange, c.adds = ∅ → (c.remove key).adds = ∅ := fun c hc => by
    unfold IndexChange.remove
    split_ifs
    · dsimp only
      rw [hc]
      rfl
    · exact hc
    · exact hc
  cases b.entry key with
  | none => exact h cell
  | some old =>
    dsimp only
    split_ifs
    · exact hrem _ (h cell)
    · exact h cell

end Batch

theorem covering_rules : Progress.Rules (fun _ _ => True) fun w =>
    w.batch.CellInv Covering ∧ (w.result.applied = 0 → w.batch.Unadded) := by
  constructor
  · rintro w w' - ⟨hc, hu⟩ - happ (hb | ⟨source, version, hb⟩)
    · rw [hb, happ]
      exact ⟨hc, hu⟩
    · rw [hb, happ]
      exact ⟨hc.remember source version, hu⟩
  · intro w w' event mid _ hw _ hm _ happ hb
    rw [hb, happ]
    exact ⟨((Batch.covering_mutates hw.1 hm).remember _ _).observe _,
      fun h0 => absurd h0 (Nat.succ_ne_zero _)⟩
  · intro w w' now entry _ ⟨hc, hu⟩ _ _ hm _ hres
    refine ⟨Batch.covering_mutates hc hm, fun h0 => ?_⟩
    rw [hres] at h0
    generalize w'.batch = b' at hm ⊢
    cases hm with
    | store entry op => rcases op with op | op <;> cases op
    | bury source => exact Batch.unadded_bury (hu h0) _ _ _

namespace Partition

theorem newPartition_covering (spec : NormalSpec) :
    (newPartition spec).idle.CellInv Covering := fun _ =>
  ⟨∅, fun key version => ⟨fun hl => (by simp at hl), fun ⟨e, he, _⟩ => (by cases he)⟩, ∅,
    covers_empty,
    .start (Nat.zero_le _)⟩

/-- In every reachable partition each cell's snapshot covers its live keys. -/
theorem Reach.covering {C : Partition → Step → Prop} {spec : NormalSpec} {p : Partition}
    (h : Reach C spec p) :
    p.idle.CellInv Covering := by
  refine Reach.rule (P := fun p => p.idle.CellInv Covering) (newPartition_covering spec)
    (fun p env events hk _ hp hm => ?_) (fun p env records load _ _ _ _ hload => ?_)
    (h.mono fun p s _ => Step.Any.meets (p := p) (s := s) trivial)
  · obtain ⟨w, -, hw, hout⟩ := covering_rules.batch hk ⟨hp, fun _ _ => rfl⟩ hm
    rw [hout]
    exact Progress.finish_cellInv hw.1 covering_publish fun h0 => covering_drop (hw.2 h0)
  · obtain ⟨hi, hc, hu⟩ := bulkStream_rule (Q := fun s => s.batch.CellInv Covering ∧
        (s.result.applied = 0 → s.batch.Unadded)) ⟨newPartition_covering p.spec, fun _ _ => rfl⟩
      (fun s entry _ hq _ _ => ⟨Batch.covering_store hq.1 entry,
        fun h0 => absurd h0 (Nat.succ_ne_zero _)⟩) hload
    exact bulkSwap_cellInv hi hc covering_publish fun h0 => covering_drop (hu h0)

theorem Reach.covers {C : Partition → Step → Prop} {spec : NormalSpec} {p : Partition}
    (h : Reach C spec p) (cell : IndexKey) :
    ∃ live, p.idle.Members cell live ∧ Covers (p.registry.indexes cell) live := by
  obtain ⟨live, hlive, before, hs, ht⟩ := h.covering cell
  exact ⟨live, hlive, hs.mono (ht.within rfl)⟩

end Partition

end Foundation.Hermes
