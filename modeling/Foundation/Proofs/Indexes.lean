import Foundation.Sanity.Cells

/-! When the published indexes are exact: each lists the live records of its cell, each once, and
knows how many they are. A key taken out twice in one batch, or records that expire in a batch that
applies nothing, leave stale keys behind. Exact or not, no chain of deltas passes its bound. -/

namespace Foundation.Hermes

open Go IndexSnapshot DeltaChain

/-! ### Exact snapshots -/

namespace IndexSnapshot

/-- Every layer knows the size of the set the chain stands for from there on. -/
def Sized : IndexSnapshot → Prop
  | [] => True
  | top :: base => top.size = (survivors (deltas (top :: base))).card ∧ Sized base

/-- A snapshot that lists the keys of a set, each once, and has its size. -/
structure Enumerates (s : IndexSnapshot) (keys : Finset String) : Prop where
  nodup : ∀ o, (forEachKey o s).Nodup
  mem_iff : ∀ o key, key ∈ forEachKey o s ↔ key ∈ keys
  size : len s = keys.card

theorem Sized.len_eq {s : IndexSnapshot} (h : Sized s) : len s = (survivors (deltas s)).card := by
  cases s with
  | nil => rfl
  | cons top base => exact h.1

theorem Sized.enumerates {s : IndexSnapshot} (h : Sized s) :
    Enumerates s (survivors (deltas s)) := by
  refine ⟨fun o => forEachKey_nodup o s, fun o key => ?_, h.len_eq⟩
  rcases forEachKey_cases o s with ⟨hlen, heq⟩ | ⟨top, base, rfl, hrem, hlen, heq⟩ | heq
  · rw [h.len_eq, Finset.card_eq_zero] at hlen
    rw [heq, hlen]
    simp
  · have hbase := h.2.len_eq
    rw [hlen, eq_comm, Finset.card_eq_zero] at hbase
    rw [heq, o.mem, deltas, List.map_cons, survivors, ← deltas, hbase, hrem]
    simp
  · rw [heq, mem_walk]
    simp

theorem Sized.compact {s : IndexSnapshot} (h : Sized s) :
    Sized (compactIndexSnapshot s) ∧ survivors (deltas (compactIndexSnapshot s)) =
      survivors (deltas s) := by
  unfold compactIndexSnapshot
  split_ifs
  · exact ⟨h, rfl⟩
  · have hkeys : survivors (deltas [⟨⟨compactKeys s, ∅⟩, compactOrderEntries s (compactKeys s),
        (compactKeys s).card, 0⟩]) = compactKeys s := by
      simp [deltas, survivors]
    refine ⟨⟨?_, trivial⟩, ?_⟩
    · rw [hkeys]
    · rw [hkeys, compactKeys, compact_eq_survivors]

end IndexSnapshot

/-- The chain with the change on top stands for the live keys, and the sizes add up. -/
structure Exactly (cell : IndexKey) (s : IndexSnapshot) (c : IndexChange) (live : GoMap String ℕ) :
  Prop where
  sized : Sized s
  disjoint : Disjoint c.adds c.removes
  keys : (c.adds ∪ survivors (deltas s)) \ c.removes = live.keys
  size : (live.keys.card : ℤ) = len s + c.delta

variable {key : String} {now : Time} {env : Env} {p : Partition}

namespace Exactly

variable {cell : IndexKey} {s : IndexSnapshot} {c : IndexChange} {live : GoMap String ℕ}

theorem mem_iff (h : Exactly cell s c live) (key : String) :
    key ∈ live.keys ↔ (key ∈ c.adds ∨ key ∈ survivors (deltas s)) ∧ key ∉ c.removes := by
  rw [← h.keys, Finset.mem_sdiff, Finset.mem_union]

theorem start (h : Sized s) (hkeys : survivors (deltas s) = live.keys) : Exactly cell s {} live :=
  ⟨h, Finset.disjoint_empty_left _, by simp [hkeys], by rw [h.len_eq, hkeys]; simp⟩

/-- A key that was taken out and put back is not taken out once more. -/
theorem remove (h : Exactly cell s c live) (hk : key ∈ live.keys)
    (hclean : key ∈ c.adds → key ∉ survivors (deltas s)) :
    Exactly cell s (c.remove key) (live.erase key) := by
  have hcard : ((live.erase key).keys.card : ℤ) = live.keys.card - 1 := by
    rw [Finmap.keys_erase, Finset.card_erase_of_mem hk,
      Nat.cast_sub (Finset.card_pos.mpr ⟨key, hk⟩)]
    rfl
  have hsize := h.size
  have hmem := h.mem_iff
  have hkey := (hmem key).mp hk
  unfold IndexChange.remove
  split_ifs with hadd hrem
  · refine ⟨h.sized, h.disjoint.mono_left (Finset.erase_subset _ _), ?_, by dsimp only; omega⟩
    have hnot := hclean hadd
    ext k
    rw [Finmap.keys_erase, Finset.mem_sdiff, Finset.mem_union, Finset.mem_erase,
      Finset.mem_erase, hmem]
    by_cases heq : k = key
    · simp [heq, hnot]
    · simp [heq]
  · exact absurd hrem hkey.2
  · refine ⟨h.sized, ?_, ?_, by dsimp only; omega⟩
    · exact Finset.disjoint_insert_right.mpr ⟨hadd, h.disjoint⟩
    · ext k
      rw [Finmap.keys_erase, Finset.mem_sdiff, Finset.mem_union, Finset.mem_insert,
        Finset.mem_erase, hmem]
      tauto

theorem add (h : Exactly cell s c live) (hk : key ∉ live.keys) (version : ℕ) :
    Exactly cell s (c.add ⟨key, version⟩) (live.insert key version) := by
  have hcard : ((live.insert key version).keys.card : ℤ) = live.keys.card + 1 := by
    rw [GoMap.keys_insert, Finset.card_insert_of_notMem hk]
    rfl
  have hsize := h.size
  have hmem := h.mem_iff
  have hnew : key ∈ c.removes ∨ key ∉ c.adds := by
    by_contra hno
    rw [not_or, not_not] at hno
    exact hk ((hmem key).mpr ⟨.inl hno.2, hno.1⟩)
  refine ⟨h.sized, ?_, ?_, ?_⟩
  · dsimp only [IndexChange.add]
    exact Finset.disjoint_insert_left.mpr ⟨Finset.notMem_erase _ _,
      h.disjoint.mono_right (Finset.erase_subset _ _)⟩
  · ext k
    dsimp only [IndexChange.add]
    rw [GoMap.keys_insert, Finset.mem_sdiff, Finset.mem_union, Finset.mem_insert, Finset.mem_erase,
      Finset.mem_insert,
      hmem]
    tauto
  · dsimp only [IndexChange.add]
    rw [if_pos hnew]
    omega

theorem publish (cell : IndexKey) (s : IndexSnapshot) (c : IndexChange) (live : GoMap String ℕ)
    (h : Exactly cell s c live) : Exactly cell (publishCell s c) {} live := by
  have hkeys : survivors (deltas (layer s c :: s)) = live.keys := h.keys
  have hsize := h.size
  have hsized : Sized (layer s c :: s) := by
    refine ⟨?_, h.sized⟩
    rw [hkeys]
    dsimp only [layer]
    omega
  obtain ⟨hs, hsurv⟩ := hsized.compact
  exact start hs (hsurv.trans hkeys)

end Exactly

/-! ### Batches -/

namespace Batch

variable {b b' : Batch} {m : AppliedMutation}

/-- Taking the entry of a key out of its cells undoes no addition of a key the snapshot has. -/
def Clean (b : Batch) (key : String) : Prop :=
  ∀ old, b.entry key = some old → ∀ cell ∈ b.cellsOf old.record,
    key ∈ (b.publisher.change cell).adds →
    key ∉ survivors (deltas (b.part.registry.indexes cell))

theorem exactly_remove (hclean : b.Clean key) (cell : IndexKey) (live : GoMap String ℕ)
    (hlive : b.Members cell live) (hk : key ∈ live.keys)
    (h : Exactly cell (b.part.registry.indexes cell) (b.publisher.change cell) live) :
    Exactly cell (b.part.registry.indexes cell) ((b.publisher.change cell).remove key)
      (live.erase key) := by
  obtain ⟨old, hold, hcell⟩ := (hlive.mem_keys key).mp hk
  exact h.remove hk (hclean old hold cell hcell)

theorem exactly_mutates (h : b.CellInv Exactly) (hm : b.Mutates m b')
    (hclean : b.Clean (keyOf m.record)) :
    b'.CellInv Exactly := by
  cases hm with
  | store entry op patches key version value fits =>
    rw [key] at hclean
    exact h.store (exactly_remove hclean) fun cell c live _ hk hc => hc.add hk _
  | bury source => exact h.bury (exactly_remove hclean) source m.version

theorem Unadded.clean (h : b.Unadded) (key : String) : b.Clean key := fun old _ cell _ hadd => by
  rw [h cell] at hadd
  exact absurd hadd (Finset.notMem_empty key)

theorem clean_of_isNone (h : (b.entry key).isNone = true) : b.Clean key := fun old hold => by
  rw [hold] at h
  cases h

theorem upsertLocked_passes {rec : DomainRecord} {source : String} {version : ℕ}
    (h : b.Passes rec .upsert version) :
    ∃ b', b.upsertLocked now (keyOf rec) rec source version = .ok (.applied, b') := by
  obtain ⟨hblock, hnew, hroom, hspace⟩ := h
  have hany : ¬ ((b.entry (keyOf rec)).any fun existing => decide (version < existing.version)) =
      true := by
    cases hold : b.entry (keyOf rec) with
    | none => simp
    | some old => simpa using hnew old hold
  unfold upsertLocked
  rw [if_neg (by rw [hblock]; decide), if_neg hany,
    if_neg fun hfull => absurd (hroom hfull.1) (not_lt.mpr hfull.2),
    if_neg (not_lt.mpr hspace)]
  exact ⟨_, rfl⟩

theorem applyMutationLocked_passes {rec : DomainRecord} {source : String} {operation : Operation}
    {version : ℕ} (h : b.Passes rec operation version) :
    ∃ b', b.applyMutationLocked now (keyOf rec) rec operation source version =
      .ok (.applied, b') := by
  cases operation with
  | unset => exact upsertLocked_passes h
  | upsert => exact upsertLocked_passes h
  | patch =>
    obtain ⟨hblock, old, hold, hver, hspace⟩ := h
    rw [applyMutationLocked, patchLocked, if_neg (by rw [hblock]; decide), hold]
    dsimp only
    rw [if_neg (not_lt.mpr hver), if_neg (not_lt.mpr hspace)]
    exact ⟨_, rfl⟩
  | delete =>
    refine ⟨b.bury (keyOf rec) source version, congrArg Except.ok ?_⟩
    unfold deleteLocked bury
    cases hold : b.entry (keyOf rec) with
    | none => exact if_neg (by rw [h.unblocked hold]; decide)
    | some old => exact if_neg (not_lt.mpr (h.newest old hold))
  | other text => exact h.elim

theorem Admits.applied {w : Progress} {event : Event} (h : w.batch.Admits now event) :
    (w.applyOne now event).result.applied = w.result.applied + 1 := by
  obtain ⟨rec, hrec, hd, hc, hpass⟩ := h.passes
  have hfresh := h.fresh
  unfold eventVersion at hpass hfresh
  obtain ⟨b', hb'⟩ : ∃ b', w.batch.applyMutationLocked now (keyOf rec) rec event.operation
    (trimSpace event.sourceID)
      (w.batch.part.effectiveVersion event.version) = .ok (.applied, b') :=
        applyMutationLocked_passes hpass
  have hscope : validateRecordScope w.batch.part.spec.toProjectionSpec rec = .ok () := by
    rw [validateRecordScope, if_neg]
    rw [not_or, not_ne_iff, not_ne_iff]
    exact ⟨hd, hc⟩
  have happ : w.batch.applyEventLocked now event =
      .ok (.applied, w.batch.part.effectiveVersion event.version,
      b'.remember (trimSpace event.sourceID) (w.batch.part.effectiveVersion event.version)) := by
    unfold applyEventLocked
    simp only [hfresh, hrec, hscope, hb', Bool.false_eq_true, if_false, bind, Except.bind, pure,
      Except.pure]
    rfl
  rw [Progress.applyOne, happ]
  rfl

end Batch

namespace Progress

theorem exactly_events : EventRules (fun b event => b.Clean (keyOf event.record)) fun w =>
    w.batch.CellInv Exactly := by
  constructor
  · rintro w w' - hw - - (hb | ⟨source, version, hb⟩)
    · rw [hb]
      exact hw
    · rw [hb]
      exact hw.remember source version
  · intro w w' event mid _ hw hclean hm _ _ hb
    rw [hb]
    exact ((Batch.exactly_mutates hw hm hclean).remember _ _).observe _

/-- At least one event of the batch passes its checks in the state it finds. -/
def Lands (env : Env) : ℕ → Progress → List Event → Prop
  | _, _, [] => False
  | i, w, event :: rest =>
    env.ctxDone i = false ∧
      (w.batch.Admits (env.clock i) event ∨ Lands env (i + 1) (w.applyOne (env.clock i) event) rest)

theorem applied_le_applyOne (w : Progress) (now : Time) (event : Event) :
    w.result.applied ≤ (w.applyOne now event).result.applied := by
  unfold applyOne
  cases w.batch.applyEventLocked now event with
  | error e => exact le_rfl
  | ok r =>
    obtain ⟨state, version, b⟩ := r
    cases state with
    | ignored => exact le_rfl
    | applied => exact Nat.le_succ _
    | duplicate => exact le_rfl

theorem applied_le_applyLoop (env : Env) (i : ℕ) (w : Progress) (events : List Event) :
    w.result.applied ≤ (applyLoop env i w events).result.applied := by
  induction events generalizing i w with
  | nil => exact le_rfl
  | cons event rest ih =>
    cases hc : env.ctxDone i with
    | true =>
      rw [applyLoop, if_pos hc]
    | false =>
      rw [applyLoop_cons hc]
      exact (w.applied_le_applyOne (env.clock i) event).trans (ih _ _)

theorem Lands.applied {i : ℕ} {w : Progress} {events : List Event} (h : Lands env i w events) :
    0 < (applyLoop env i w events).result.applied := by
  induction events generalizing i w with
  | nil => exact h.elim
  | cons event rest ih =>
    obtain ⟨hc, hadmits | hlands⟩ := h
    · rw [applyLoop_cons hc]
      refine lt_of_lt_of_le ?_ (applied_le_applyLoop env (i + 1) _ rest)
      rw [hadmits.applied]
      exact Nat.succ_pos _
    · rw [applyLoop_cons hc]
      exact ih hlands

end Progress

namespace Partition

/-- A record is past its TTL when the batch starts. -/
def Due (p : Partition) (env : Env) : Prop :=
  ∃ key e, p.idle.entry key = some e ∧ Progress.expired (env.clock 0) e = true

/-- A batch that takes no key out of an index twice, and applies an event when records expire. -/
structure Publishable (p : Partition) (env : Env) (events : List Event) : Prop where
  clean : Progress.Meets (fun b event => b.Clean (keyOf event.record)) env 1
    (p.startBatch env) events
  lands : p.Due env → Progress.Lands env 1 (p.startBatch env) events

def Step.Publishable (p : Partition) : Step → Prop
  | .applyBatch env events => env.ctxDone 0 = false → p.Publishable env events
  | .applyRecords env sourcePrefix baseVersion records =>
    env.ctxDone 0 = false →
      p.Publishable env (records.mapIdx (recordEvent sourcePrefix baseVersion))
  | .bulkLoad _ _ => True

theorem exactly_startBatch (hk : p.idle.Keyed) (h : p.idle.CellInv Exactly) (env : Env) :
    (p.startBatch env).batch.Keyed ∧ (p.startBatch env).batch.CellInv Exactly := by
  have hrule :=
    Progress.evictExpired_rule (P := fun w => w.batch.CellInv Exactly ∧ w.batch.Unadded) env
    (w := { batch := ⟨p, ∅⟩, result := { epoch := p.epoch } })
    (fun {w w' entry} _ hw _ _ hm _ _ => by
      refine ⟨Batch.exactly_mutates hw.1 hm (hw.2.clean _), ?_⟩
      generalize w'.batch = b' at hm ⊢
      cases hm with
      | store entry op => rcases op with op | op <;> cases op
      | bury source => exact Batch.unadded_bury hw.2 _ _ _)
    hk ⟨h, fun _ => rfl⟩
  exact ⟨hrule.1, hrule.2.1⟩

theorem startBatch_of_not_due (hk : p.idle.Keyed) (h : ¬ p.Due env) :
    p.startBatch env = { batch := ⟨p, ∅⟩, result := { epoch := p.epoch } } :=
  (Progress.evictExpired_rule (P := fun w => w =
    { batch := ⟨p, ∅⟩, result := { epoch := p.epoch } }) env
    (fun {w w' entry} _ hw he hx _ _ _ => by
      subst hw
      exact absurd ⟨_, entry, he, hx⟩ h)
    hk rfl).2

theorem unpublished_rules : Progress.EventRules (fun _ _ => True) fun w =>
    w.result.applied = 0 → w.batch.publisher = ∅ := by
  constructor
  · rintro w w' - hw - happ (hb | ⟨source, version, hb⟩)
    · rw [hb, happ]
      exact hw
    · rw [hb, happ]
      exact hw
  · intro w w' event mid _ _ _ _ _ happ _ h0
    rw [happ] at h0
    exact absurd h0 (Nat.succ_ne_zero _)

theorem exactly_batch (hk : p.idle.Keyed) (h : p.idle.CellInv Exactly) {events : List Event}
    (hp : p.Publishable env events) :
    (p.applyBatchObserving env events).part.idle.CellInv Exactly := by
  obtain ⟨hk', hstart⟩ := exactly_startBatch hk h env
  have hloop := Progress.applyLoop_rule (P := fun w => w.batch.Keyed ∧ w.batch.CellInv Exactly)
    (fun now w event hw hc => Progress.exactly_events.applyOne now hw.1 hw.2 hc) (fun w hw => hw)
      hp.clean ⟨hk', hstart⟩
  refine Progress.finish_cellInv hloop.2 Exactly.publish fun h0 cell live hc => ?_
  by_cases hdue : p.Due env
  · exact absurd (hp.lands hdue).applied (by rw [h0]; decide)
  · have hempty := Progress.applyLoop_rule (C := fun _ _ => True)
      (P := fun w => w.batch.Keyed ∧ (w.result.applied = 0 → w.batch.publisher = ∅))
      (fun now w event hw hc => unpublished_rules.applyOne now hw.1 hw.2 hc) (fun w hw => hw)
      (Progress.meets_true env 1 (p.startBatch env) events)
      ⟨hk', fun _ => by rw [startBatch_of_not_due hk hdue]⟩
    rw [hempty.2 h0] at hc
    exact hc

theorem newPartition_exactly (spec : NormalSpec) :
    (newPartition spec).idle.CellInv Exactly := fun cell =>
  ⟨∅, fun key version => ⟨fun hl => (by simp at hl), fun ⟨e, he, _⟩ => (by cases he)⟩,
    .start ⟨rfl, trivial⟩ rfl⟩

/-- A bulk load starts from empty snapshots, so no key can be taken out of one. -/
theorem exactly_bulk {records : List DomainRecord} {load : BulkState}
    (h : bulkStream env p.spec records = .ok load) : (p.bulkSwap load).idle.CellInv Exactly := by
  obtain ⟨hi, hc, hidx, hempty⟩ := bulkStream_rule (Q := fun s => s.batch.CellInv Exactly ∧
      s.batch.part.registry.indexes = (fun _ => emptyIndex) ∧
        (s.result.applied = 0 → s.batch.publisher = ∅))
    ⟨newPartition_exactly p.spec, rfl, fun _ => rfl⟩
    (fun s entry _ hq _ _ => by
      refine ⟨?_, by rw [Batch.store_indexes]; exact hq.2.1,
        fun h0 => absurd h0 (Nat.succ_ne_zero _)⟩
      refine hq.1.store (Batch.exactly_remove fun old _ cell _ _ => ?_) fun cell c live _ hk
        hc => hc.add hk _
      rw [hq.2.1]
      exact Finset.notMem_empty _) h
  refine bulkSwap_cellInv hi hc Exactly.publish fun h0 cell live hcell => ?_
  rw [hempty h0] at hcell
  exact hcell

theorem Reach.exactly {spec : NormalSpec} (h : Reach Step.Publishable spec p) :
    p.idle.CellInv Exactly := by
  induction h with
  | start => exact newPartition_exactly spec
  | @step p s hp hc ih =>
    have hk := hp.keyed.1
    cases s with
    | applyBatch env events =>
      rw [exec]
      split_ifs with hctx
      · exact ih
      · exact exactly_batch hk ih (hc (by simpa using hctx))
    | applyRecords env sourcePrefix baseVersion records =>
      rw [exec]
      split_ifs with hctx
      · exact ih
      · exact exactly_batch hk ih (hc (by simpa using hctx))
    | bulkLoad env records =>
      rw [exec]
      split_ifs
      · exact ih
      · cases hb : p.bulkLoad env records with
        | error e => exact ih
        | ok r =>
          obtain ⟨q, result⟩ := r
          obtain ⟨load, hload, rfl⟩ := bulkLoad_ok hb
          exact exactly_bulk hload

/-! ### The indexes of a partition -/

/-- The keys of the live records that meet a condition. -/
def keysWhere (p : Partition) (f : DomainRecord → Bool) : Finset String :=
  p.registry.records.keys.filter fun key => (p.idle.entry key).any fun e => f e.record

theorem mem_keysWhere {f : DomainRecord → Bool} :
    key ∈ p.keysWhere f ↔ ∃ e, p.idle.entry key = some e ∧ f e.record = true := by
  rw [keysWhere, Finset.mem_filter, GoMap.mem_keys_iff]
  change (∃ v, p.idle.entry key = some v) ∧ _ ↔ _
  cases p.idle.entry key with
  | none => simp
  | some e => simp

theorem Reach.enumerates {spec : NormalSpec} (h : Reach Step.Publishable spec p) {cell : IndexKey}
    {f : DomainRecord → Bool}
    (hcell : ∀ key e, p.idle.entry key = some e →
      (cell ∈ p.idle.cellsOf e.record ↔ f e.record = true)) :
    Enumerates (p.registry.indexes cell) (p.keysWhere f) := by
  obtain ⟨live, hlive, hx⟩ := h.exactly cell
  have hkeys : survivors (deltas (p.registry.indexes cell)) = p.keysWhere f := by
    ext key
    have hk := hx.mem_iff key
    simp only [Partition.idle, IndexPublisher.change, Finmap.lookup_empty, Option.getD_none,
      Finset.notMem_empty,
      false_or, not_false_eq_true, and_true] at hk
    rw [← hk, hlive.mem_keys, mem_keysWhere]
    constructor
    · rintro ⟨e, he, hc⟩
      exact ⟨e, he, (hcell key e he).mp hc⟩
    · rintro ⟨e, he, hf⟩
      exact ⟨e, he, (hcell key e he).mpr hf⟩
  exact hkeys ▸ hx.sized.enumerates

/-- As long as no batch takes a key out of an index twice, and every batch in which records
expire applies an event, the published indexes are exact. -/
theorem indexes_exact {spec : NormalSpec} {p : Partition} (h : Reach Step.Publishable spec p)
    (organizationID : String) :
    Enumerates (p.registry.indexes (.scope ⟨spec.domain, spec.collection, organizationID⟩))
        (p.keysWhere fun rec => rec.organizationID = organizationID) ∧
      ∀ filter : QueryFilter, filter.field ∈ spec.indexedFields →
        Enumerates
          (p.registry.indexes (.field ⟨⟨spec.domain, spec.collection, organizationID⟩, filter⟩))
          (p.keysWhere fun rec => rec.organizationID = organizationID && matchesFilter rec.data
            filter) := by
  obtain ⟨hk, rfl⟩ := h.keyed
  refine ⟨h.enumerates fun key e he => ?_, fun filter hf => h.enumerates fun key e he => ?_⟩
  · rw [decide_eq_true_eq]
    exact Batch.mem_cells_scope hk he organizationID
  · rw [Bool.and_eq_true_iff, decide_eq_true_eq]
    exact Batch.mem_cells_field hk he organizationID hf

/-! ### On concrete input -/

theorem not_due
    (h : ∀ key ∈ p.registry.records.keys,
      ((p.idle.entry key).any fun e => Progress.expired (env.clock 0) e) = false) :
    ¬ p.Due env := by
  rintro ⟨key, e, he, hx⟩
  have hkey := h key ((GoMap.mem_keys_iff _ _).mpr ⟨e, he⟩)
  rw [he, Option.any_some, hx] at hkey
  cases hkey

def putOrder (id state : String) (version : ℕ) : Event := ⟨.upsert, "", version, order id state⟩

def openOrders : Partition :=
  (newPartition ordersSpec).exec (.applyBatch (.steady 1) [putOrder "a" "open" 1,
    putOrder "b" "open" 2])

theorem openOrders_reach : Reach Step.Publishable ordersSpec openOrders :=
  .step _ .start fun _ =>
    ⟨fun _ => ⟨fun _ => Batch.clean_of_isNone (by decide +kernel),
        fun _ => ⟨fun _ => Batch.clean_of_isNone (by decide +kernel), trivial⟩⟩,
      fun ⟨_, _, he, _⟩ => (by cases he)⟩

def payOrder : Event := ⟨.upsert, "checkout", 3, order "a" "paid"⟩

/-- One of two open orders is paid, with the event delivered twice. -/
theorem indexes_exact_after_payment : ∃ p, Reach Step.Publishable ordersSpec p ∧
    Enumerates (p.registry.indexes (.field ⟨⟨"orders", "order", "acme"⟩, ⟨"state", 's', "paid"⟩⟩))
      (p.keysWhere fun rec => rec.organizationID = "acme" && matchesFilter rec.data ⟨"state",
        's', "paid"⟩) ∧
    p.keysWhere (fun rec => rec.organizationID = "acme" && matchesFilter rec.data ⟨"state",
      's', "paid"⟩) =
      {keyOf (order "a" "paid")} := by
  have hdue : ¬ openOrders.Due (.steady 2) := not_due (by decide +kernel)
  have hunadded : (openOrders.startBatch (.steady 2)).batch.Unadded := by
    rw [startBatch_of_not_due openOrders_reach.keyed.1 hdue]
    exact fun _ => rfl
  have hpaid := Reach.step (.applyBatch (.steady 2) [payOrder, payOrder]) openOrders_reach fun _ =>
    ⟨fun _ => ⟨fun _ => hunadded.clean _,
      fun _ => ⟨fun h => absurd h.fresh (by decide +kernel), trivial⟩⟩,
      fun h => absurd h hdue⟩
  exact ⟨_, hpaid, (indexes_exact hpaid "acme").2 _ (by decide), by decide +kernel⟩

/-- An order that is changed and deleted in one batch stays in the index, and so does one
that expires in a batch that applies nothing. -/
theorem indexes_list_removed_orders :
    (∃ p, Reach Step.Any ordersSpec p ∧
      ¬ Enumerates (p.registry.indexes (.scope ⟨"orders", "order", "acme"⟩))
        (p.keysWhere fun rec => rec.organizationID = "acme")) ∧
    ∃ p, Reach Step.Any { ordersSpec with ttl := 5 } p ∧
      ¬ Enumerates (p.registry.indexes (.scope ⟨"orders", "order", "acme"⟩))
        (p.keysWhere fun rec => rec.organizationID = "acme") := by
  have hany {spec : NormalSpec} (steps : List Step) :
      Reach Step.Any spec ((newPartition spec).execAll steps) :=
    Reach.start.execAll steps
  refine ⟨⟨_, hany [.applyBatch (.steady 1) [putOrder "a" "open" 1, putOrder "b" "open" 2],
    .applyBatch (.steady 2) [putOrder "a" "paid" 3, ⟨.delete, "", 4, order "a" "paid"⟩]],
    fun h => ?_⟩,
    ⟨_, hany [.applyBatch (.steady 1) [putOrder "a" "open" 1], .applyBatch (.steady 10) []],
    fun h => ?_⟩⟩
  · have hstale :=
      (h.mem_iff (.ascendingBy id Function.injective_id) (keyOf (order "a" "paid"))).mp
      (by decide +kernel)
    exact absurd hstale (by decide +kernel)
  · have hsize := h.size
    exact absurd hsize (by decide +kernel)

/-! ### The length of the chains -/

/-- A chain of the depth its top states, which compaction bounds. -/
def Bounded (s : IndexSnapshot) : Prop := s.length = depth s + 1 ∧ depth s ≤ maxIndexDeltaDepth

theorem bounded_publish {indexes : IndexKey → IndexSnapshot} (h : ∀ cell, Bounded (indexes cell))
    (p : IndexPublisher) (cell : IndexKey) : Bounded (p.publish indexes cell) := by
  rcases publish_cell p indexes cell with heq | ⟨heq, -⟩
  · rw [heq, publishCell, compactIndexSnapshot]
    split_ifs with hd
    · exact ⟨congrArg (· + 1) (h cell).1, hd⟩
    · exact ⟨rfl, Nat.zero_le _⟩
  · rw [heq]
    exact h cell

theorem mutates_indexes {b b' : Batch} {m : AppliedMutation} (hm : b.Mutates m b') :
    b'.part.registry.indexes = b.part.registry.indexes := by
  cases hm with
  | store => exact Batch.store_indexes ..
  | bury => exact Batch.bury_indexes ..

/-- Whatever calls a partition takes, a walk over one of its indexes meets at most 513 layers. -/
theorem chains_bounded (spec : NormalSpec) (steps : List Step) (cell : IndexKey) :
    Bounded (((newPartition spec).execAll steps).registry.indexes cell) := by
  have hr : Reach Step.Any spec ((newPartition spec).execAll steps) := Reach.start.execAll steps
  refine Reach.rule (P := fun p => ∀ cell, Bounded (p.registry.indexes cell))
    (fun _ => ⟨rfl, Nat.zero_le _⟩) ?_ ?_
    (hr.mono fun _ _ => Step.Any.meets) cell
  · intro p env events hk _ hp hm
    have hrules : Progress.Rules (fun _ _ => True) fun w => w.batch.part.registry.indexes =
        p.registry.indexes := by
      constructor
      · rintro w w' - hw - - (hb | ⟨source, version, hb⟩) <;> simp [hb, hw]
      · rintro w w' event mid - hw - hm - - hb
        rw [hb, Batch.observe, observeSourceWatermark, Batch.remember_part,
          rememberAppliedLocked_registry,
          mutates_indexes hm, hw]
      · exact fun _ hw _ _ hm _ _ => (mutates_indexes hm).trans hw
    obtain ⟨w, -, hw, hout⟩ := hrules.batch hk rfl hm
    rw [← hw] at hp
    rw [hout, Progress.finishApplyLocked]
    split_ifs
    · exact bounded_publish hp _
    · exact hp
  · intro p env records load _ _ _ _ hload
    obtain ⟨-, hq⟩ :=
      bulkStream_rule (Q := fun s => ∀ cell, Bounded (s.batch.part.registry.indexes cell))
      (fun _ => ⟨rfl, Nat.zero_le _⟩) (fun s entry _ hq _ _ => by rwa [Batch.store_indexes]) hload
    rw [bulkSwap, publishBulk]
    split_ifs
    · exact bounded_publish hq _
    · exact hq

end Partition

end Foundation.Hermes
