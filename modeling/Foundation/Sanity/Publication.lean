import Foundation.Sanity.Cells

/-! The order in which the index cells list their records. A record is listed again with
every store, so a cell also lists entries that describe no live record any more. Those that
do have a version below all entries listed later, as long as every store brings one. -/

namespace Foundation.Hermes

open Go IndexSnapshot

namespace IndexSnapshot

theorem forEachOrderDesc_cons (top : IndexLayer) (base : IndexSnapshot) :
    forEachOrderDesc (top :: base) = top.order.reverse ++ forEachOrderDesc base := rfl

theorem forEachOrderDesc_compact (s : IndexSnapshot) :
    (forEachOrderDesc (compactIndexSnapshot s)).Sublist (forEachOrderDesc s) := by
  unfold compactIndexSnapshot
  split_ifs
  · exact .refl _
  · rw [forEachOrderDesc_cons, compactOrderEntries, List.reverse_reverse]
    exact (List.append_nil _).symm ▸ newestEntries_sublist _ _ _

theorem forEachOrderDesc_publish (s : IndexSnapshot) (c : IndexChange) :
    (forEachOrderDesc (publishCell s c)).Sublist (c.order.reverse ++ forEachOrderDesc s) := by
  refine (forEachOrderDesc_compact _).trans ?_
  rw [forEachOrderDesc_cons]
  exact (List.filter_sublist.reverse).append_right _

end IndexSnapshot

theorem IndexChange.remove_order (c : IndexChange) (key : String) :
    (c.remove key).order = c.order := by
  unfold IndexChange.remove
  split_ifs <;> rfl

variable {b' : Batch}

namespace Batch

variable (b : Batch)

/-- The order entries of a cell, newest first: those the batch has collected on top. -/
def listed (cell : IndexKey) : List RecordOrderEntry :=
  (b.publisher.change cell).order.reverse ++ forEachOrderDesc (b.part.registry.indexes cell)

/-- An order entry that describes the live record of its key. -/
def Current (x : RecordOrderEntry) : Prop := ∃ e, b.entry x.key = some e ∧ e.version = x.version

/-- In every cell a current entry has a version below those listed before it. -/
def Descending : Prop :=
  ∀ cell, (b.listed cell).Pairwise fun x y => b.Current y → y.version < x.version

variable {b}

theorem left_order (key : String) (cell : IndexKey) :
    (b.left key cell).order = (b.publisher.change cell).order := by
  unfold left
  cases b.entry key with
  | none => rfl
  | some old =>
    dsimp only
    split_ifs
    · exact IndexChange.remove_order _ _
    · rfl

theorem bury_listed (key source : String) (version : ℕ) (cell : IndexKey) :
    (b.bury key source version).listed cell = b.listed cell := by
  rw [listed, bury_change, left_order, bury_indexes, ← listed]

theorem store_listed (entry : RecordEntry) (cell : IndexKey) : (b.store entry).listed cell =
    if cell ∈ b.cellsOf entry.record then ⟨keyOf entry.record, entry.version⟩ :: b.listed cell
    else b.listed cell := by
  rw [listed, store_change, store_indexes]
  split_ifs
  · rw [IndexChange.add, left_order, List.reverse_append, List.reverse_singleton,
      List.singleton_append, listed]
    rfl
  · rw [left_order, ← listed]

/-- What a store has to bring for the order to be kept: its key is not listed at its version
already, and the version is newer than those of the live records of its cells. -/
structure Newest (b : Batch) (cells : IndexKey → Prop) (key : String) (version : ℕ) : Prop where
  unlisted : ∀ cell, ⟨key, version⟩ ∉ b.listed cell
  newer : ∀ cell, cells cell → ∀ x ∈ b.listed cell, b.Current x → x.version < version

theorem Descending.bury (h : b.Descending) (key source : String) (version : ℕ) :
    (b.bury key source version).Descending := by
  intro cell
  rw [bury_listed]
  have hcurrent : ∀ x, (b.bury key source version).Current x → b.Current x :=
    fun x ⟨e, he, hv⟩ => by
    rw [bury_entry] at he
    split_ifs at he
    exact ⟨e, he, hv⟩
  exact (h cell).imp fun hxy hy => hxy (hcurrent _ hy)

theorem Descending.store (h : b.Descending) {entry : RecordEntry}
    (hnew : b.Newest (· ∈ b.cellsOf entry.record) (keyOf entry.record) entry.version) :
    (b.store entry).Descending := by
  have hcurrent : ∀ cell, ∀ x ∈ b.listed cell, (b.store entry).Current x → b.Current x :=
    fun cell x hx ⟨e, he, hv⟩ => by
      rw [store_entry] at he
      split_ifs at he with hk
      · obtain rfl := Option.some_inj.mp he
        have heq : x = ⟨keyOf entry.record, entry.version⟩ := by rw [← hk, hv]
        exact absurd (heq ▸ hx) (hnew.unlisted cell)
      · exact ⟨e, he, hv⟩
  have hold : ∀ cell, (b.listed cell).Pairwise fun x y => (b.store entry).Current y →
      y.version < x.version :=
    fun cell => (h cell).imp_of_mem fun _ hy hxy hcy => hxy (hcurrent cell _ hy hcy)
  intro cell
  rw [store_listed]
  split_ifs with hcell
  · exact List.pairwise_cons.mpr
      ⟨fun y hy hcy => hnew.newer cell hcell y hy (hcurrent cell y hy hcy), hold cell⟩
  · exact hold cell

theorem Descending.congr (h : b.Descending) (he : ∀ key, b'.entry key = b.entry key)
    (hl : ∀ cell, (b'.listed cell).Sublist (b.listed cell)) : b'.Descending := fun cell => by
  unfold Current
  simp only [he]
  exact (h cell).sublist (hl cell)

theorem remember_listed (source : String) (version : ℕ) (cell : IndexKey) :
    (b.remember source version).listed cell = b.listed cell := by
  rw [listed, Batch.remember, Partition.rememberAppliedLocked_registry]
  rfl

theorem observe_listed (version : ℕ) (cell : IndexKey) :
    (b.observe version).listed cell = b.listed cell :=
  rfl

end Batch

theorem Progress.finish_listed (w : Progress) (cell : IndexKey) :
    (w.finishApplyLocked.part.idle.listed cell).Sublist (w.batch.listed cell) := by
  have hdrop : (forEachOrderDesc (w.batch.part.registry.indexes cell)).Sublist
      (w.batch.listed cell) :=
    List.sublist_append_right _ _
  change (forEachOrderDesc (w.finishApplyLocked.part.registry.indexes cell)).Sublist _
  by_cases happ : 0 < w.result.applied
  · rw [Progress.finishApplyLocked, if_pos happ]
    dsimp only
    rcases publish_cell w.batch.publisher w.batch.part.registry.indexes cell with heq | ⟨heq, -⟩
    · rw [heq]
      exact forEachOrderDesc_publish _ _
    · rw [heq]
      exact hdrop
  · rw [Progress.finishApplyLocked, if_neg happ]
    exact hdrop

theorem Partition.bulkSwap_listed (p : Partition) (load : BulkState) (cell : IndexKey) :
    ((p.bulkSwap load).idle.listed cell).Sublist (load.batch.listed cell) := by
  have hdrop : (forEachOrderDesc (load.batch.part.registry.indexes cell)).Sublist
      (load.batch.listed cell) :=
    List.sublist_append_right _ _
  change (forEachOrderDesc ((Partition.publishBulk load).indexes cell)).Sublist _
  by_cases happ : 0 < load.result.applied
  · rw [Partition.publishBulk, if_pos happ]
    dsimp only
    rcases publish_cell load.batch.publisher load.batch.part.registry.indexes
      cell with heq | ⟨heq, -⟩
    · rw [heq]
      exact forEachOrderDesc_publish _ _
    · rw [heq]
      exact hdrop
  · rw [Partition.publishBulk, if_neg happ]
    exact hdrop

/-! ### The columnar order -/

namespace Batch

variable (b : Batch)

/-- What an ordered registry has proved: versions descend in every cell, and of two live
records the one with the newer version was not updated earlier. -/
structure Chronological : Prop where
  descending : b.Descending
  listed_le : ∀ cell, ∀ x ∈ b.listed cell, x.version ≤ b.part.registry.lastColumnarVer
  entry_le : ∀ key e, b.entry key = some e → e.version ≤ b.part.registry.lastColumnarVer ∧
    e.record.updatedAt ≤ b.part.registry.lastColumnarTime
  newer : ∀ key key' e e', b.entry key = some e → b.entry key' = some e' → e.version < e'.version →
    e.record.updatedAt ≤ e'.record.updatedAt

def Ordered : Prop := b.part.registry.columnarUnordered = false → b.Chronological

variable {b}

theorem track_bitmaps (r : PartitionRegistry) (bitmaps : BitmapIndexRegistry) (updatedAt : Time)
    (version : ℕ) :
    ({ r with bitmaps := bitmaps } : PartitionRegistry).trackColumnarOrder updatedAt version =
      { r.trackColumnarOrder updatedAt version with bitmaps := bitmaps } := by
  unfold PartitionRegistry.trackColumnarOrder
  split_ifs <;> rfl

theorem store_tracked (entry : RecordEntry) :
    let r := b.part.registry.trackColumnarOrder entry.record.updatedAt entry.version
    (b.store entry).part.registry.columnarUnordered = r.columnarUnordered ∧
      (b.store entry).part.registry.lastColumnarVer = r.lastColumnarVer ∧
      (b.store entry).part.registry.lastColumnarTime = r.lastColumnarTime := by
  unfold store storeEntry
  cases b.entry (keyOf entry.record) with
  | none => exact ⟨rfl, rfl, rfl⟩
  | some old =>
    simp only [addIndexesLocked, removeIndexesLocked, track_bitmaps]
    trivial

/-- A store that leaves the registry ordered found it ordered and brought the newest version
and the latest update. -/
theorem store_ordered {entry : RecordEntry}
    (h : (b.store entry).part.registry.columnarUnordered = false) :
    b.part.registry.columnarUnordered = false ∧ b.part.registry.lastColumnarVer < entry.version ∧
      b.part.registry.lastColumnarTime ≤ entry.record.updatedAt ∧
      (b.store entry).part.registry.lastColumnarVer = entry.version ∧
      (b.store entry).part.registry.lastColumnarTime = entry.record.updatedAt := by
  obtain ⟨hu, hv, ht⟩ := b.store_tracked entry
  rw [hv, ht]
  rw [hu] at h
  unfold PartitionRegistry.trackColumnarOrder at h ⊢
  split_ifs at h ⊢ with h1 h2
  · exact absurd (h1.symm.trans h) (by decide)
  · rw [not_or, not_le, not_lt] at h2
    exact ⟨by simpa using h1, h2.1, h2.2, rfl, rfl⟩

theorem Ordered.store (h : b.Ordered) (entry : RecordEntry) : (b.store entry).Ordered := by
  intro hu
  obtain ⟨hold, hver, htime, hver', htime'⟩ := store_ordered hu
  have hc := h hold
  have hlisted : ∀ cell, ∀ x ∈ b.listed cell, x.version < entry.version := fun cell x hx =>
    (hc.listed_le cell x hx).trans_lt hver
  have hentry : ∀ key e, b.entry key = some e → e.version < entry.version ∧
      e.record.updatedAt ≤ entry.record.updatedAt := fun key e he =>
    ⟨(hc.entry_le key e he).1.trans_lt hver, (hc.entry_le key e he).2.trans htime⟩
  refine ⟨hc.descending.store ⟨fun cell hx => (hlisted cell _ hx).ne rfl,
    fun cell _ x hx _ => hlisted cell x hx⟩,
    fun cell x hx => ?_, fun key e he => ?_, fun key key' e e' he he' hlt => ?_⟩
  · rw [hver']
    rw [store_listed] at hx
    split_ifs at hx
    · rcases List.mem_cons.mp hx with rfl | hx
      · exact le_rfl
      · exact (hlisted cell x hx).le
    · exact (hlisted cell x hx).le
  · rw [hver', htime']
    rw [store_entry] at he
    split_ifs at he
    · obtain rfl := Option.some_inj.mp he
      exact ⟨le_rfl, le_rfl⟩
    · exact ⟨(hentry key e he).1.le, (hentry key e he).2⟩
  · rw [store_entry] at he he'
    split_ifs at he he'
    · obtain rfl := Option.some_inj.mp he
      obtain rfl := Option.some_inj.mp he'
      exact absurd hlt (lt_irrefl _)
    · obtain rfl := Option.some_inj.mp he
      exact absurd hlt (hentry key' e' he').1.not_gt
    · obtain rfl := Option.some_inj.mp he'
      exact (hentry key e he).2
    · exact hc.newer key key' e e' he he' hlt

theorem Chronological.mono (h : b.Chronological) (hd : b'.Descending)
    (hl : ∀ cell, (b'.listed cell).Sublist (b.listed cell))
    (he : ∀ key e, b'.entry key = some e → b.entry key = some e)
    (hv : b'.part.registry.lastColumnarVer = b.part.registry.lastColumnarVer)
    (ht : b'.part.registry.lastColumnarTime = b.part.registry.lastColumnarTime) :
    b'.Chronological :=
  ⟨hd, fun cell x hx => hv ▸ h.listed_le cell x ((hl cell).subset hx),
    fun key e hx => by rw [hv, ht]; exact h.entry_le key e (he key e hx),
    fun key key' e e' hx hx' => h.newer key key' e e' (he key e hx) (he key' e' hx')⟩

theorem bury_tracked (key source : String) (version : ℕ) :
    (b.bury key source version).part.registry.lastColumnarVer = b.part.registry.lastColumnarVer ∧
      (b.bury key source version).part.registry.lastColumnarTime =
        b.part.registry.lastColumnarTime := by
  unfold bury
  cases b.entry key <;> simp [buryKey, retireEntry, removeIndexesLocked,
    Partition.rememberTombstoneLocked_eq]

theorem Ordered.bury (h : b.Ordered) (key source : String) (version : ℕ) :
    (b.bury key source version).Ordered := by
  intro hu
  rw [bury_columnarUnordered] at hu
  refine (h hu).mono ((h hu).descending.bury key source version) (fun cell => by rw [bury_listed])
    (fun k e he => ?_) (b.bury_tracked key source version).1 (b.bury_tracked key source version).2
  rw [bury_entry] at he
  split_ifs at he
  exact he

theorem Ordered.congr (h : b.Ordered) (he : ∀ key, b'.entry key = b.entry key)
    (hl : ∀ cell, (b'.listed cell).Sublist (b.listed cell))
    (hu : b'.part.registry.columnarUnordered = b.part.registry.columnarUnordered)
    (hv : b'.part.registry.lastColumnarVer = b.part.registry.lastColumnarVer)
    (ht : b'.part.registry.lastColumnarTime = b.part.registry.lastColumnarTime) :
    b'.Ordered := fun hn =>
  (h (hu ▸ hn)).mono ((h (hu ▸ hn)).descending.congr he hl) hl (fun key _ hx => he key ▸ hx) hv ht

theorem Ordered.mutates {m : AppliedMutation} (h : b.Ordered) (hm : b.Mutates m b') :
    b'.Ordered := by
  cases hm with
  | store entry => exact h.store entry
  | bury source => exact h.bury _ _ _

theorem Ordered.remember (h : b.Ordered) (source : String) (version : ℕ) :
    (b.remember source version).Ordered := by
  have hreg : (b.remember source version).part.registry = b.part.registry := by
    rw [Batch.remember, Partition.rememberAppliedLocked_registry]
  exact h.congr (fun key => remember_entry _ _ _ _) (fun cell => by rw [remember_listed])
    (by rw [hreg]) (by rw [hreg])
    (by rw [hreg])

theorem Ordered.observe (h : b.Ordered) (version : ℕ) : (b.observe version).Ordered :=
  h.congr (fun _ => rfl) (fun _ => .refl _) rfl rfl rfl

end Batch

theorem ordered_rules : Progress.Rules (fun _ _ => True) fun w => w.batch.Ordered := by
  constructor
  · rintro w w' - hw - - (hb | ⟨source, version, hb⟩)
    · rw [hb]
      exact hw
    · rw [hb]
      exact hw.remember source version
  · intro w w' event mid _ hw _ hm _ _ hb
    rw [hb]
    exact ((hw.mutates hm).remember _ _).observe _
  · intro w w' now entry _ hw _ _ hm _ _
    exact hw.mutates hm

namespace Partition

theorem newPartition_ordered (spec : NormalSpec) : (newPartition spec).idle.Ordered := fun _ =>
  ⟨fun _ => List.Pairwise.nil, fun _ x hx => absurd hx List.not_mem_nil,
    fun _ _ he => (by cases he),
    fun _ _ _ _ he => (by cases he)⟩

theorem Reach.ordered {C : Partition → Step → Prop} {spec : NormalSpec} {p : Partition}
    (h : Reach C spec p) :
    p.idle.Ordered := by
  refine Reach.rule (P := fun p => p.idle.Ordered) (newPartition_ordered spec)
    (fun p env events hk _ hp hm => ?_)
    (fun p env records load _ _ _ _ hload => ?_) (h.mono fun p s _ =>
      Step.Any.meets (p := p) (s := s) trivial)
  · obtain ⟨w, -, hw, hout⟩ := ordered_rules.batch hk hp hm
    rw [hout]
    have hfield : ∀ {α : Type} (f : PartitionRegistry → α),
        (∀ r indexes, f { r with indexes := indexes } = f r) →
        f w.finishApplyLocked.part.registry = f w.batch.part.registry := fun f hf => by
      unfold Progress.finishApplyLocked
      split_ifs
      · exact hf _ _
      · rfl
    exact hw.congr (Progress.finish_entry w) w.finish_listed (hfield _ fun _ _ => rfl)
      (hfield _ fun _ _ => rfl)
      (hfield _ fun _ _ => rfl)
  · obtain ⟨-, hq⟩ := bulkStream_rule (Q := fun s => s.batch.Ordered) (newPartition_ordered p.spec)
      (fun s entry _ hq _ _ => hq.store entry) hload
    have hfield : ∀ {α : Type} (f : PartitionRegistry → α),
        (∀ r indexes, f { r with indexes := indexes } = f r) →
        f (publishBulk load) = f load.batch.part.registry := fun f hf => by
      unfold publishBulk
      split_ifs
      · exact hf _ _
      · rfl
    exact hq.congr (p.bulkSwap_entry load) (p.bulkSwap_listed load) (hfield _ fun _ _ => rfl)
      (hfield _ fun _ _ => rfl)
      (hfield _ fun _ _ => rfl)

end Partition

end Foundation.Hermes
