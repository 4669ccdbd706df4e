import Foundation.Lib.Reached
import Foundation.Sanity.Store
import Foundation.Spec.Rebuilding

/-! Which applied events survive a rebuild: those whose source write the rebuild had read
and whose record its query covers. -/

namespace Foundation.Hermes.Rebuilding

open Go ProjectedRuntimeStore

variable {s₀ s s' : Shared}

/-! ### What a rebuild loads -/

def Request.limit (request : Request) (spec : ProjectionSpec) : ℤ :=
  if request.query.limit ≤ 0 then spec.maxRecords else request.query.limit

/-- The query of a rebuild reaches what the source holds under an identity of its projection. -/
structure Request.Covers (request : Request) (spec : ProjectionSpec) (source : BaseStore)
  (id : RecordIdentity) :
    Prop where
  organizationID : id.organizationID = trimSpace request.organizationID
  filters : ∀ rec, source.records.lookup id = some rec →
    rec.data.matches (BaseStore.normalizeRecordFilters request.query.filters) = true
  limit : source.countRecords request.order spec.domain spec.collection
    (trimSpace request.organizationID)
    request.query ≤ request.limit spec

variable {source : BaseStore} {writes : List Write}

/-- What is loaded under a covered identity is what the source holds under it. -/
theorem load_entry {env : Env} {spec : NormalSpec} {request : Request} {bulk : Partition.BulkState}
    (h : load env spec source request = .ok bulk) {rec : DomainRecord}
    (hd : (identityOf rec).domain = spec.domain)
    (hc : (identityOf rec).collection = spec.collection)
    (hcov : request.Covers spec.toProjectionSpec source (identityOf rec)) :
    (bulk.batch.entry (keyOf rec)).map (·.record) = source.records.lookup (identityOf rec) := by
  unfold load at h
  split_ifs at h
  · cases h
  obtain ⟨records, hrecords, hbulk⟩ := except_bind_eq_ok h
  obtain ⟨horg, rfl⟩ := streamRebuildRecords_ok hrecords
  have hcount : source.countRecords request.order spec.domain spec.collection
      (trimSpace request.organizationID)
      { request.query with limit := request.limit spec.toProjectionSpec } ≤
        request.limit spec.toProjectionSpec :=
    hcov.limit
  have hmem : ∀ r, r ∈ source.forEachRecord request.order spec.domain spec.collection
      (trimSpace request.organizationID)
      { request.query with limit := request.limit spec.toProjectionSpec } ↔
      source.records.lookup (identityOf r) = some r ∧
        (r.domain = spec.domain ∧ r.collection = spec.collection ∧
        r.organizationID = trimSpace request.organizationID) ∧
        r.data.matches (BaseStore.normalizeRecordFilters request.query.filters) = true :=
          fun r => by
    rw [mem_forEachRecord hcount, mem_candidates (spec.domain_trim.symm ▸ spec.domain_ne)
      (spec.collection_trim.symm ▸ spec.collection_ne) (by rwa [trimSpace_trimSpace]),
        spec.domain_trim,
      spec.collection_trim, trimSpace_trimSpace]
  obtain ⟨hi, hfrom, hall⟩ := bulkStream_entry (fun r hr => ((hmem r).mp hr).1) hbulk
  have hsame : ∀ e, bulk.batch.entry (keyOf rec) = some e →
      source.records.lookup (identityOf rec) = some e.record := fun e he => by
    rw [← (keyOf_eq_iff _ _).mp (hi.keyed.key_eq _ _ he)]
    exact ((hmem _).mp (hfrom _ _ he)).1
  cases he : bulk.batch.entry (keyOf rec) with
  | some e => exact (hsame e he).symm
  | none =>
    cases hl : source.records.lookup (identityOf rec) with
    | none => rfl
    | some found =>
      obtain ⟨hid, hst⟩ := source.stored _ _ hl
      refine absurd he ?_
      rw [(keyOf_eq_iff rec found).mpr hid.symm]
      refine hall found ((hmem found).mpr ⟨hid ▸ hl, ⟨?_, ?_, ?_⟩, hcov.filters found hl⟩)
      · rw [← hst.domain_trim, ← hd, ← hid]
        rfl
      · rw [← hst.collection_trim, ← hc, ← hid]
        rfl
      · rw [← hst.organizationID_trim, ← hcov.organizationID, ← hid]
        rfl

/-! ### Runs -/

/-- A batch keeps the partition's shape and accepts only records of the projection. -/
theorem applyBatchObserving_owned {p : Partition} (hk : p.idle.Keyed) (env : Env)
    (events : List Event) :
    (p.applyBatchObserving env events).part.idle.Keyed ∧
      (p.applyBatchObserving env events).part.spec = p.spec ∧
      ∀ m ∈ (p.applyBatchObserving env events).accepted, p.idle.Owns m.record := by
  have hrules : Progress.Rules (fun _ _ => True)
      (fun w => w.batch.part.spec = p.spec ∧ ∀ m ∈ w.accepted, p.idle.Owns m.record) := by
    constructor
    · intro w w' hk hw hacc _ hb
      rw [hacc]
      rcases hb with hb | ⟨source, version, hb⟩
      · rw [hb]
        exact hw
      · rw [hb, Batch.remember_spec]
        exact hw
    · intro w w' event mid hk hw _ hm hacc _ hb
      have hown := hm.owned
      rw [Batch.Owns, hw.1] at hown
      rw [hb, Batch.observe_spec, Batch.remember_spec, hm.spec_eq, hacc]
      exact ⟨hw.1, List.forall_mem_append.mpr ⟨hw.2, List.forall_mem_singleton.mpr hown⟩⟩
    · intro w w' now entry hk hw _ _ hm hacc _
      have hown := hm.owned
      rw [Batch.Owns, hw.1] at hown
      rw [hm.spec_eq, hacc]
      exact ⟨hw.1, List.forall_mem_append.mpr ⟨hw.2, List.forall_mem_singleton.mpr hown⟩⟩
  obtain ⟨w, hk', ⟨hspec, hacc⟩, hout⟩ :=
    hrules.batch hk ⟨rfl, by simp⟩ (Progress.meets_true env 1 _ events)
  rw [hout, Progress.finish_spec, Progress.finish_accepted]
  exact ⟨Progress.finish_keyed hk', hspec, hacc⟩

/-- The condition under which a step loses no event: the rebuild's query covers every event
applied so far, and what is applied between its read and its swap was written before the
read and is covered too. -/
def Orderly (s : Shared) : Action → Prop
  | .stream _ request =>
    ∀ e ∈ s.reported, request.Covers s.part.spec.toProjectionSpec s.source (identityOf e.1.record)
  | .apply _ events => ∀ t, s.streamed = some t → ∀ e ∈ events,
      e.2 < t.reads ∧ t.request.Covers s.part.spec.toProjectionSpec t.source (identityOf e.1.record)
  | _ => True

def opened (spec : NormalSpec) (source : BaseStore) : Shared where
  source := source
  part := newPartition spec

/-- Every write is followed by one, perhaps itself, that left what `source` holds. -/
def Tracks (writes : List Write) (source : BaseStore) (n : ℕ) : Prop :=
  ∀ write, writes[n]? = some write →
    ∃ k, n ≤ k ∧ writes[k]? = some ⟨write.id, source.records.lookup write.id⟩

structure Streamed.Faithful (t : Streamed) (s : Shared) : Prop where
  loaded : ∃ env, load env s.part.spec t.source t.request = .ok t.bulk
  reads_le : t.reads ≤ s.writes.length
  tracks : ∀ n < t.reads, Tracks s.writes t.source n
  covers : ∀ e ∈ s.reported, e.2 < t.reads ∧
    t.request.Covers s.part.spec.toProjectionSpec t.source (identityOf e.1.record)

structure Inv (s : Shared) : Prop where
  keyed : s.part.idle.Keyed
  tracks : ∀ n, Tracks s.writes s.source n
  announced : ∀ e ∈ s.reported, s.part.idle.Owns e.1.record ∧
    ∃ write, s.writes[e.2]? = some write ∧ write.announcedBy e.1 = true
  streamed : ∀ t, s.streamed = some t → t.Faithful s

theorem opened_inv (spec : NormalSpec) (source : BaseStore) : Inv (opened spec source) := by
  refine ⟨(Partition.bulkInv_start spec).keyed, fun n write h => ?_, fun e he => ?_, fun t ht => ?_⟩
  · simp [opened] at h
  · simp [opened] at he
  · cases ht

theorem getElem?_append_of_some {k : ℕ} {write : Write} (more : List Write)
    (h : writes[k]? = some write) : (writes ++ more)[k]? = some write := by
  obtain ⟨hk, -⟩ := List.getElem?_eq_some_iff.mp h
  rw [List.getElem?_append_left hk, h]

theorem Tracks.append {n : ℕ} (h : Tracks writes source n) (hn : n < writes.length)
    (more : List Write) : Tracks (writes ++ more) source n := by
  intro write hw
  rw [List.getElem?_append_left hn] at hw
  obtain ⟨k, hk, hl⟩ := h write hw
  exact ⟨k, hk, getElem?_append_of_some more hl⟩

theorem tracks_write {db db' : BaseStore} {write : Write} (h : ∀ n, Tracks writes db n)
    (hdb : ∀ id, db'.records.lookup id = if id = write.id then write.value
      else db.records.lookup id) (n : ℕ) :
    Tracks (writes ++ [write]) db' n := by
  intro w hw
  have hn : n < (writes ++ [write]).length := (List.getElem?_eq_some_iff.mp hw).1
  by_cases hid : w.id = write.id
  · refine ⟨writes.length, by simp at hn; omega, ?_⟩
    rw [hdb, if_pos hid, hid]
    simp
  · have hlt : n < writes.length := by
      by_contra hge
      have : n = writes.length := by simp at hn; omega
      subst this
      simp at hw
      exact hid (by rw [hw])
    rw [hdb, if_neg hid]
    exact (h n).append hlt [write] w hw

theorem Inv.write (h : Inv s) {db : BaseStore} (write : Write)
    (hdb : ∀ id, db.records.lookup id = if id = write.id then write.value
      else s.source.records.lookup id) :
    Inv { s with source := db, writes := s.writes ++ [write] } := by
  refine ⟨h.keyed, tracks_write h.tracks hdb, fun e he => ?_, fun t ht => ?_⟩
  · obtain ⟨hown, w, hw, hann⟩ := h.announced e he
    exact ⟨hown, w, getElem?_append_of_some _ hw, hann⟩
  · have hf := h.streamed t ht
    refine ⟨hf.loaded, hf.reads_le.trans (by simp), fun n hn => ?_, hf.covers⟩
    exact (hf.tracks n hn).append (hn.trans_le hf.reads_le) _

theorem mem_reportedOf {accepted : List AppliedMutation} {events : List (Event × ℕ)} {e : Event × ℕ}
    (h : e ∈ reportedOf accepted events) : e ∈ events ∧ ∃ m ∈ accepted, m.record = e.1.record := by
  obtain ⟨he, hany⟩ := List.mem_filter.mp h
  obtain ⟨m, hm, hsame⟩ := List.any_eq_true.mp hany
  rw [Bool.and_eq_true, beq_iff_eq, beq_iff_eq] at hsame
  exact ⟨he, m, hm, hsame.2⟩

theorem Inv.applyBatch (h : Inv s) (env : Env) {events : List (Event × ℕ)}
    (hann : ∀ e ∈ events, ∃ write, s.writes[e.2]? = some write ∧ write.announcedBy e.1 = true)
    (hord : Orderly s (.apply env events)) : Inv (applyBatch env s events) := by
  unfold Rebuilding.applyBatch
  split_ifs
  · exact h
  obtain ⟨hkeyed, hspec, hown⟩ := applyBatchObserving_owned h.keyed env (events.map Prod.fst)
  dsimp only
  generalize s.part.applyBatchObserving env (events.map Prod.fst) = out at hkeyed hspec hown
  have hfresh : ∀ e ∈ reportedOf (out.accepted.drop (s.part.startBatch env).accepted.length) events,
      e ∈ events ∧ s.part.idle.Owns e.1.record := fun e he => by
    obtain ⟨hmem, m, hm, hrec⟩ := mem_reportedOf he
    exact ⟨hmem, hrec ▸ hown m (List.mem_of_mem_drop hm)⟩
  refine ⟨hkeyed, h.tracks, fun e he => ?_, fun t ht => ?_⟩
  · unfold Partition.idle Batch.Owns
    rw [hspec]
    rcases List.mem_append.mp he with he | he
    · exact h.announced e he
    · exact ⟨(hfresh e he).2, hann e (hfresh e he).1⟩
  · have hf := h.streamed t ht
    refine ⟨hspec ▸ hf.loaded, hf.reads_le, hf.tracks, fun e he => ?_⟩
    rw [hspec]
    rcases List.mem_append.mp he with he | he
    · exact hf.covers e he
    · exact hord t ht e (hfresh e he).1

theorem Inv.stream (h : Inv s) {env : Env} {request : Request} {bulk : Partition.BulkState}
    (hload : load env s.part.spec s.source request = .ok bulk)
    (hord : Orderly s (.stream env request)) :
    Inv { s with streamed := some ⟨request, s.source, s.writes.length, bulk⟩ } := by
  refine ⟨h.keyed, h.tracks, h.announced, fun t ht => ?_⟩
  obtain rfl := Option.some.inj ht
  refine ⟨⟨env, hload⟩, le_rfl, fun n _ => h.tracks n, fun e he => ⟨?_, hord e he⟩⟩
  obtain ⟨-, write, hw, -⟩ := h.announced e he
  exact (List.getElem?_eq_some_iff.mp hw).1

theorem Inv.swap (h : Inv s) {t : Streamed} (ht : s.streamed = some t) :
    Inv { s with part := s.part.bulkSwap t.bulk, streamed := none } := by
  refine ⟨?_, h.tracks, h.announced, fun t ht => by cases ht⟩
  obtain ⟨env, hload⟩ := (h.streamed t ht).loaded
  unfold load at hload
  split_ifs at hload
  · cases hload
  obtain ⟨records, -, hbulk⟩ := except_bind_eq_ok hload
  exact Partition.bulkSwap_keyed (Partition.bulkLoop_ok (Partition.bulkInv_start _) hbulk).1

theorem Inv.step {action : Action} (h : Inv s) (hord : Orderly s action)
    (hexec : exec s action = some s') :
    Inv s' := by
  cases action with
  | put now pos rec =>
    rw [exec] at hexec
    cases hup : s.source.upsertRecord now pos rec with
    | error e => rw [hup] at hexec; cases hexec
    | ok r =>
      obtain ⟨saved, db⟩ := r
      rw [hup] at hexec
      obtain rfl := Option.some.inj hexec
      refine h.write ⟨identityOf rec, some saved⟩ fun id => ?_
      unfold BaseStore.upsertRecord at hup
      split at hup
      · cases hup
      · obtain ⟨rfl, rfl⟩ := Prod.mk.inj (Except.ok.inj hup)
        exact GoMap.lookup_insert_if _ _ _ _
  | remove rec =>
    obtain rfl := Option.some.inj hexec
    exact h.write ⟨identityOf rec, none⟩ fun id => GoMap.lookup_erase_if _ _ _
  | apply env events =>
    rw [exec] at hexec
    split_ifs at hexec with hann
    obtain rfl := Option.some.inj hexec
    refine h.applyBatch env (fun e he => ?_) hord
    have := List.all_eq_true.mp hann e he
    rwa [Option.any_eq_true] at this
  | stream env request =>
    rw [exec] at hexec
    split_ifs at hexec
    cases hload : load env s.part.spec s.source request with
    | error e =>
      rw [hload] at hexec
      exact Option.some.inj hexec ▸ h
    | ok bulk =>
      rw [hload] at hexec
      exact Option.some.inj hexec ▸ h.stream hload hord
  | swap =>
    obtain ⟨t, ht, rfl⟩ := Option.map_eq_some_iff.mp hexec
    exact h.swap ht

theorem inv_of_reached {spec : NormalSpec} (h : Reached exec Orderly (opened spec source) s) :
    Inv s :=
  h.invariant (opened_inv spec source) fun _ _ _ hord hexec ih => ih.step hord hexec

/-- What the partition holds for the event's record is what the source held after the
event's write or a later one. -/
def Reflected (s : Shared) (part : Partition) (e : Event × ℕ) : Prop :=
  ∃ k write, e.2 ≤ k ∧ s.writes[k]? = some write ∧ write.id = identityOf e.1.record ∧
    (part.registry.records.lookup (keyOf e.1.record)).map (·.record) = write.value

/-- In every orderly run each event applied before a swap is reflected after it. -/
theorem applied_reflected_after_swap {spec : NormalSpec} {source : BaseStore}
    (h : Reached exec Orderly (opened spec source) s) (hswap : exec s .swap = some s') :
    ∀ e ∈ s.reported, (∃ write, s.writes[e.2]? = some write ∧ write.announcedBy e.1 = true) ∧
      Reflected s s'.part e := by
  intro e he
  have hinv := inv_of_reached h
  obtain ⟨t, ht, rfl⟩ := Option.map_eq_some_iff.mp hswap
  obtain ⟨hown, write, hwrite, hann⟩ := hinv.announced e he
  refine ⟨⟨write, hwrite, hann⟩, ?_⟩
  have hid : write.id = identityOf e.1.record := by
    unfold Write.announcedBy at hann
    exact eq_of_beq (Bool.and_eq_true_iff.mp hann).1
  have hf := hinv.streamed t ht
  obtain ⟨hread, hcov⟩ := hf.covers e he
  obtain ⟨k, hk, hlast⟩ := hf.tracks e.2 hread write hwrite
  obtain ⟨env, hload⟩ := hf.loaded
  refine ⟨k, _, hk, hlast, hid, ?_⟩
  have hentry := Partition.bulkSwap_entry s.part t.bulk (keyOf e.1.record)
  rw [hid, ← load_entry hload hown.1 hown.2 hcov, ← hentry]
  rfl

/-! ### Sample runs -/

instance (request : Request) (spec : ProjectionSpec) (source : BaseStore) (id : RecordIdentity) :
    Decidable (request.Covers spec source id) :=
  decidable_of_iff (id.organizationID = trimSpace request.organizationID ∧
    ((source.records.lookup id).all fun rec =>
      rec.data.matches (BaseStore.normalizeRecordFilters request.query.filters)) = true ∧
    source.countRecords request.order spec.domain spec.collection (trimSpace request.organizationID)
      request.query ≤ request.limit spec)
    ⟨fun h => ⟨h.1, (Option.all_eq_true _ _).mp h.2.1, h.2.2⟩,
      fun h => ⟨h.organizationID, (Option.all_eq_true _ _).mpr h.filters, h.limit⟩⟩

instance (s : Shared) : (action : Action) → Decidable (Orderly s action)
  | .put .. | .remove _ | .swap => isTrue trivial
  | .stream _ request => inferInstanceAs (Decidable (∀ e ∈ s.reported,
      request.Covers s.part.spec.toProjectionSpec s.source (identityOf e.1.record)))
  | .apply _ events => inferInstanceAs (Decidable (∀ t, s.streamed = some t → ∀ e ∈ events,
      e.2 < t.reads ∧
        t.request.Covers s.part.spec.toProjectionSpec t.source (identityOf e.1.record)))

def wholeScope : Request := ⟨(CallEnv.steady 0).baseOrder, "acme", {}⟩

def firstUpsert : Event := ⟨.upsert, "orders:1", 1, BaseStore.empty.saved 1 (order "a" "open")⟩

/-- The event is applied between the read and the swap, its source write before the read. -/
theorem applied_reflected_after_swap_overlapping :
    ∃ s s', Reached exec Orderly (opened ordersSpec .empty) s ∧
    exec s .swap = some s' ∧ (firstUpsert, 0) ∈ s.reported ∧
      Reflected s s'.part (firstUpsert, 0) := by
  obtain ⟨s, hs, hread⟩ := Reached.exists_of_run exec (fun s action => decide (Orderly s action))
    (fun s => s.streamed.isSome && decide ((firstUpsert, 0) ∈ s.reported))
      (opened ordersSpec .empty)
    [.put 1 (by decide) (order "a" "open"), .stream (.steady 2) wholeScope,
      .apply (.steady 1) [(firstUpsert, 0)]]
    (fun _ _ => of_decide_eq_true) (by decide +kernel) (by decide +kernel)
  obtain ⟨hstreamed, hrep⟩ := Bool.and_eq_true_iff.mp hread
  obtain ⟨t, ht⟩ := Option.isSome_iff_exists.mp hstreamed
  have hswap : exec s .swap = some { s with part := s.part.bulkSwap t.bulk, streamed := none } := by
    rw [exec, ht]
    rfl
  have hrep := of_decide_eq_true hrep
  exact ⟨s, _, hs, hswap, hrep, (applied_reflected_after_swap hs hswap _ hrep).2⟩

/-- An event written and applied between the read and the swap is gone after the swap. -/
theorem applied_lost_by_swap : ∃ s s', Reached exec (fun _ _ => True) (opened ordersSpec .empty) s ∧
    exec s .swap = some s' ∧ ∃ e ∈ s.reported, ¬ Reflected s s'.part e := by
  have hex : (runSteps exec (opened ordersSpec .empty)
      [.stream (.steady 1) wholeScope, .put 1 (by decide) (order "a" "open"),
        .apply (.steady 2) [(firstUpsert, 0)]]).any (fun s =>
          s.writes.all (·.value.isSome) && decide ((firstUpsert, 0) ∈ s.reported) &&
          (exec s .swap).any fun s' =>
            decide (s'.part.registry.records.lookup (keyOf firstUpsert.record) = none)) = true := by
    decide +kernel
  obtain ⟨s, hs, hlost⟩ := (Option.any_eq_true _ _).mp hex
  obtain ⟨hkept, hgone⟩ := Bool.and_eq_true_iff.mp hlost
  obtain ⟨hwrites, hrep⟩ := Bool.and_eq_true_iff.mp hkept
  obtain ⟨s', hswap, hgone⟩ := (Option.any_eq_true _ _).mp hgone
  refine ⟨s, s', Reached.start.of_free (fun _ _ _ => trivial) hs, hswap, _,
    of_decide_eq_true hrep, ?_⟩
  rintro ⟨k, write, -, hk, -, hval⟩
  rw [of_decide_eq_true hgone] at hval
  have := List.all_eq_true.mp hwrites write (List.mem_of_getElem? hk)
  rw [← hval] at this
  cases this

end Foundation.Hermes.Rebuilding
