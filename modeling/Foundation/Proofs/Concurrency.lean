import Foundation.Lib.Reached
import Foundation.Sanity.Interleaving
import Foundation.Sanity.Steps

/-! Interleaved calls on one scope: under which conditions the hot partition agrees with the
base once every call has returned. -/

namespace Foundation.Hermes.Interleaving

open Go ProjectedRuntimeStore

variable {ι : Type} {requests : ι → Request} {s₀ s s' : Shared ι}

/-! ### Runs -/

/-- A state the calls can start from: nothing in the partition is newer than the counter. -/
structure Settled (requests : ι → Request) (s : Shared ι) : Prop where
  ready : ∀ i, s.phase i = .ready
  scope : ∀ i, InScope s.part.spec.toProjectionSpec (requests i)
  fenced : s.part.Fenced "state" s.version
  fence_le : s.part.fence "state" ≤ s.version
  unknown : ∀ v label rec, s.version < v → sourceID label rec v ∉ s.part.applied

/-- Nothing the partition keeps is of a version above the counter. -/
structure UpToCounter (p : Partition) (version : ℕ) : Prop where
  fences : p.FencedBelow version
  tombstones : p.BuriedBelow version
  entries : ∀ key e, p.idle.entry key = some e → e.version ≤ version
  sources : ∀ v label rec, version < v → sourceID label rec v ∉ p.applied

/-- Every partition without a TTL that has nothing newer than the counter can be started from. -/
theorem settled_of_reach {spec : NormalSpec} {p : Partition}
    (hp : Partition.Reach Partition.Step.Any spec p) (httl : spec.ttl ≤ 0)
    (hscope : ∀ i, InScope spec.toProjectionSpec (requests i)) (db : BaseStore) {version : ℕ}
    (h : UpToCounter p version) :
    Settled requests { base := db, version := version, part := p } := by
  obtain ⟨hk, rfl⟩ := hp.keyed
  refine ⟨fun _ => rfl, hscope, ⟨httl, hp.accounted, ?_, fun key e he => ?_⟩, ?_, h.sources⟩
  · exact Batch.Behind.mono ⟨hk, h.fences, h.tombstones⟩ (le_max_left _ _)
  · exact (h.entries key e he).trans (le_max_left _ _)
  · change ((p.watermarks.lookup "state").getD {}).version ≤ version
    cases hl : p.watermarks.lookup "state" with
    | none => exact Nat.zero_le _
    | some fence => exact h.fences "state" fence hl

def Phase.Done (phase : Phase) : Prop := phase = .missed ∨ ∃ rec v, phase = .returned rec v

theorem Settled.inv (h : Settled requests s) : Inv requests s.version s := by
  have hnone : ∀ {i rec v}, ¬ (s.phase i).Stamped rec v := by
    intro i rec v
    rw [h.ready i]
    exact not_stamped_ready
  have hphase : ∀ {i phase}, s.phase i = phase → phase = .ready :=
    fun {i _} hi => hi.symm.trans (h.ready i)
  refine ⟨h.scope, h.fenced, le_rfl, fun i rec v hi => absurd hi hnone,
    fun i j rec rec' v hi => absurd hi hnone,
    fun v label rec hv => h.unknown v label rec ?_, .inl h.fence_le, fun i rec hi => ?_,
    fun i rec v hi => absurd hi hnone, fun i rec v hi => absurd (.inr hi) hnone⟩
  · rcases hv with hv | ⟨i, r, hi⟩
    · exact hv
    · cases hphase hi
  · rcases hi with hi | ⟨v, hi⟩
    · cases hphase hi
    · exact absurd hi hnone

variable {v0 : ℕ} {i : ι} {action : Action ι}

theorem Inv.exists_latest (h : Inv requests v0 s) {rec : DomainRecord} {v : ℕ}
    (hi : (s.phase i).Stamped rec v) : ∃ j r w, (s.phase j).Stamped r w ∧
      (requests j).target = (requests i).target ∧ Latest requests s j w := by
  -- versions are bounded by the counter, so going to later ones ends
  induction hn : s.version - v using Nat.strong_induction_on generalizing i rec v with
  | _ n ih =>
    by_cases hl : Latest requests s i v
    · exact ⟨i, rec, v, hi, rfl, hl⟩
    · unfold Latest at hl
      push Not at hl
      obtain ⟨k, q, w, hk, ht, hlt⟩ := hl
      obtain ⟨j, r, u, hj, htj, hlj⟩ :=
        ih (s.version - w) (by have := (h.stamped k q w hk).2; omega) hk rfl
      exact ⟨j, r, u, hj, htj.trans ht, hlj⟩

/-- A record without an id is neither in the base nor in the partition. -/
theorem blank_agrees (db : BaseStore) {p : Partition} {request : Request} (hk : p.idle.Keyed)
    (hid : request.target.recordID = "") :
    p.idle.entry request.key = none ∧ db.records.lookup request.target = none := by
  constructor
  · cases he : p.idle.entry request.key with
    | none => rfl
    | some e =>
      have hn := hk.normal _ e he
      have ht : identityOf e.record = request.target := (keyOf_eq_iff _ _).mp (hk.key_eq _ e he)
      have hrid := congrArg RecordIdentity.recordID ht
      rw [hid] at hrid
      simp only [identityOf, recordIdentity, hn.recordID_trim] at hrid
      exact absurd hrid hn.recordID_ne
  · cases hl : db.records.lookup request.target with
    | none => rfl
    | some rec =>
      obtain ⟨ht, hst⟩ := db.stored _ _ hl
      have hrid := congrArg RecordIdentity.recordID ht
      rw [hid] at hrid
      simp only [identityOf, recordIdentity, hst.recordID_trim] at hrid
      exact absurd hrid hst.recordID_ne

theorem Inv.agrees (h : Inv requests v0 s) (hdone : ∀ i, (s.phase i).Done) {rec : DomainRecord}
    {v : ℕ} (hi : s.phase i = .returned rec v) :
    (s.part.idle.entry (requests i).key).map (·.record) =
      s.base.records.lookup (requests i).target := by
  by_cases hid : (requests i).target.recordID = ""
  · obtain ⟨hnone, hbase⟩ := blank_agrees s.base h.fenced.behind.keyed hid
    rw [hnone, hbase]
    rfl
  · obtain ⟨j, r, w, hj, ht, hl⟩ := h.exists_latest (.inr hi)
    have hret : s.phase j = .returned r w := by
      rcases hdone j with hm | ⟨r', w', hr⟩
      · rw [hm] at hj
        exact absurd hj not_stamped_missed
      · rw [hr] at hj ⊢
        rcases hj with hj | hj
        · cases hj
        · exact hj
    have hquiet : Quiet requests s (requests j).target := fun k q hk => by
      rcases hdone k with hm | ⟨_, _, hr⟩
      · rw [hm] at hk
        cases hk
      · rw [hr] at hk
        cases hk
    have hkey : (requests i).key = (requests j).key := (keyOf_eq_iff _ _).mpr ht.symm
    rw [hkey, ← ht, (h.hot j r w hret (ht ▸ hid) hl).1, h.base j r w hj hl hquiet]

variable [DecidableEq ι]

/-- What a step has to meet: the counter does not wrap and the call is current when it
reserves, and its event is admitted when it applies. -/
def Orderly (requests : ι → Request) (s : Shared ι) : Action ι → Prop
  | .access .. => True
  | .reserve i =>
    s.version + 1 < 2 ^ 64 ∧ ∀ rec, s.phase i = .holding rec → Current requests s i rec
  | .apply i env => ∀ rec v, s.phase i = .reserved rec v → Admitted requests s i rec v env

theorem exec_cases (he : exec requests s action = some s') :
    (∃ i now pos, action = .access i now pos ∧ s.phase i = .ready ∧ s' = { s with
      base := (access now pos s.base (requests i)).2
      phase := Function.update s.phase i (access now pos s.base (requests i)).1 }) ∨
    (∃ i rec, action = .reserve i ∧ s.phase i = .holding rec ∧ s' = { s with
      version := (s.version + 1) % 2 ^ 64
      phase := Function.update s.phase i (.reserved rec ((s.version + 1) % 2 ^ 64)) }) ∨
    ∃ i rec v env, action = .apply i env ∧ s.phase i = .reserved rec v ∧ s' = { s with
      part := hotApply env s.part (event (requests i).kind rec v)
      phase := Function.update s.phase i (.returned rec v) } := by
  cases action with
  | access i now pos =>
    unfold exec at he
    dsimp only at he
    cases hi : s.phase i <;> rw [hi] at he
    case ready => exact .inl ⟨i, now, pos, rfl, hi, (Option.some.inj he).symm⟩
    all_goals cases he
  | reserve i =>
    unfold exec at he
    dsimp only at he
    cases hi : s.phase i <;> rw [hi] at he
    case holding rec => exact .inr (.inl ⟨i, rec, rfl, hi, (Option.some.inj he).symm⟩)
    all_goals cases he
  | apply i env =>
    unfold exec at he
    dsimp only at he
    cases hi : s.phase i <;> rw [hi] at he
    case reserved rec v => exact .inr (.inr ⟨i, rec, v, env, rfl, hi, (Option.some.inj he).symm⟩)
    all_goals cases he

theorem Inv.step {v0 : ℕ} {action : Action ι} (h : Inv requests v0 s)
    (hc : Orderly requests s action) (he : exec requests s action = some s') :
    Inv requests v0 s' := by
  rcases exec_cases he with ⟨i, now, pos, -, hi, rfl⟩ | ⟨i, rec, rfl, hi, rfl⟩ | ⟨i, rec, v, env,
    rfl, hi, rfl⟩
  · exact h.access hi
  · rw [Nat.mod_eq_of_lt hc.1]
    exact h.reserve hi (hc.2 rec hi)
  · exact h.apply hi (hc rec v hi)

theorem inv_of_reached (hrun : Reached (exec requests) (Orderly requests) s₀ s)
    (h : Settled requests s₀) :
    Inv requests s₀.version s :=
  hrun.invariant h.inv fun _ _ _ hc he ih => ih.step hc he

/-- In every orderly interleaving, once all calls have returned the hot partition holds for
the key of every call that projected something what the base holds. -/
theorem interleaved_calls_agree (h₀ : Settled requests s₀)
    (hrun : Reached (exec requests) (Orderly requests) s₀ s)
    (hdone : ∀ i, (s.phase i).Done) (i : ι) (hi : s.phase i ≠ .missed) :
    (s.part.idle.entry (requests i).key).map (·.record) =
      s.base.records.lookup (requests i).target := by
  obtain ⟨rec, v, hret⟩ := (hdone i).resolve_left hi
  exact (inv_of_reached hrun h₀).agrees hdone hret

/-! ### Calls on one record -/

/-- On one record no other call's version can be fenced off, so a step has to meet less. -/
def OrderlyOnOne (requests : ι → Request) (s : Shared ι) : Action ι → Prop
  | .access .. => True
  | .reserve i =>
    s.version + 1 < 2 ^ 64 ∧ ∀ rec, s.phase i = .holding rec → Current requests s i rec
  | .apply i env => ∀ rec v, s.phase i = .reserved rec v →
      (env.ctxDone 0 = false ∧ env.ctxDone 1 = false ∧
        ((requests i).kind ≠ .delete → s.part.idle.HasRoom rec)) ∨
        ∃ j r w, (s.phase j).Stamped r w ∧ v < w

omit [DecidableEq ι] in
theorem Inv.orderly (h : Inv requests v0 s)
    (hone : ∀ i j, (requests i).target = (requests j).target)
    (hc : OrderlyOnOne requests s action) : Orderly requests s action := by
  cases action with
  | access i now pos => trivial
  | reserve i => exact hc
  | apply i env =>
    intro rec v hi
    by_cases hlater : ∃ j r w, (s.phase j).Stamped r w ∧ v < w
    · obtain ⟨j, r, w, hj, hlt⟩ := hlater
      exact .inr ⟨j, r, w, hj, hone j i, hlt⟩
    · obtain ⟨h0, h1, hroom⟩ := (hc rec v hi).resolve_right hlater
      refine .inl ⟨h0, h1, ?_, hroom⟩
      rcases h.fence_le with hle | ⟨j, r, w, hj, hle⟩
      · exact hle.trans_lt (h.stamped i rec v (.inl hi)).1
      · have hle' : w ≤ v := not_lt.mp fun hlt => hlater ⟨j, r, w, .inr hj, hlt⟩
        have hne : w ≠ v := by
          rintro rfl
          obtain rfl := h.distinct j i r rec w (.inr hj) (.inl hi)
          rw [hi] at hj
          cases hj
        omega

/-- What the hot partition holds for the record is what the base holds. -/
def NotStale (s : Shared ι) (request : Request) : Prop :=
  ∀ e, s.part.idle.entry request.key = some e → s.base.records.lookup request.target = some e.record

/-- Until a call has got hold of a record, base and partition are as they were. -/
theorem notStale_of_idle (hrun : Reached (exec requests) (OrderlyOnOne requests) s₀ s)
    (h : NotStale s₀ (requests i)) (hidle : ∀ j, s.phase j = .ready ∨ s.phase j = .missed) :
    NotStale s (requests i) := by
  induction hrun with
  | start => exact h
  | @next s s' action _ _ he ih =>
    rcases exec_cases he with ⟨k, now, pos, -, hk, rfl⟩ | ⟨k, rec, -, hk, rfl⟩ | ⟨k, rec, v,
      env, -, hk, rfl⟩
    · have hold : ∀ j, s.phase j = .ready ∨ s.phase j = .missed := by
        intro j
        by_cases hj : j = k
        · exact .inl (hj ▸ hk)
        · have hkept := hidle j
          dsimp only at hkept
          rwa [update_phase hj] at hkept
      have hmissed := hidle k
      dsimp only at hmissed
      rw [Function.update_self] at hmissed
      rcases access_cases now pos s.base (requests k) with ⟨-, hdb⟩ | ⟨r, hr, -⟩
      · have hkept := ih hold
        unfold NotStale at hkept ⊢
        dsimp only
        rw [hdb]
        exact hkept
      · rw [hr] at hmissed
        rcases hmissed with hm | hm <;> cases hm
    · have hk' := hidle k
      dsimp only at hk'
      rw [Function.update_self] at hk'
      rcases hk' with hm | hm <;> cases hm
    · have hk' := hidle k
      dsimp only at hk'
      rw [Function.update_self] at hk'
      rcases hk' with hm | hm <;> cases hm

theorem inv_of_reached_one (hrun : Reached (exec requests) (OrderlyOnOne requests) s₀ s)
    (h : Settled requests s₀) (hone : ∀ i j, (requests i).target = (requests j).target) :
    Inv requests s₀.version s :=
  hrun.invariant h.inv fun _ _ _ hc he ih => ih.step (ih.orderly hone hc) he

/-- In every interleaving of reads and writes of one record whose steps meet the conditions,
once all calls have returned the hot partition holds no value but the base's. -/
theorem readThrough_not_stale (h₀ : Settled requests s₀)
    (hone : ∀ i j, (requests i).target = (requests j).target)
    (hstart : ∀ i, NotStale s₀ (requests i))
    (hrun : Reached (exec requests) (OrderlyOnOne requests) s₀ s) (hdone : ∀ i, (s.phase i).Done)
    (i : ι) : NotStale s (requests i) := by
  have hinv := inv_of_reached_one hrun h₀ hone
  by_cases hidle : ∀ j, s.phase j = .ready ∨ s.phase j = .missed
  · exact notStale_of_idle hrun (hstart i) hidle
  · push Not at hidle
    obtain ⟨j, -, hj⟩ := hidle
    obtain ⟨rec, v, hret⟩ := (hdone j).resolve_left hj
    have hag := hinv.agrees hdone hret
    intro e he
    rw [show (requests j).key = (requests i).key from (keyOf_eq_iff _ _).mpr (hone j i),
      hone j i, he] at hag
    exact hag.symm

/-! ### Runs on concrete records -/

def checked (requests : ι → Request) (s : Shared ι) : Action ι → Bool
  | .access .. => true
  | .reserve i => decide (s.version + 1 < 2 ^ 64) && match s.phase i with
    | .holding rec => s.base.records.lookup (requests i).target == carried (requests i).kind rec
    | _ => true
  | .apply i env => match s.phase i with
    | .reserved rec v => !env.ctxDone 0 && !env.ctxDone 1 && decide (s.part.fence "state" < v) &&
        decide ((requests i).kind ≠ .delete → s.part.idle.HasRoom rec)
    | _ => true

omit [DecidableEq ι] in
theorem orderly_of_checked (h : checked requests s action = true) :
    Orderly requests s action := by
  cases action with
  | access i now pos => trivial
  | reserve i =>
    simp only [checked, Bool.and_eq_true, decide_eq_true_eq] at h
    refine ⟨h.1, fun rec hi => .inl ?_⟩
    simpa [hi] using h.2
  | apply i env =>
    intro rec v hi
    simp only [checked, hi, Bool.and_eq_true, Bool.not_eq_true', decide_eq_true_eq] at h
    exact .inl ⟨h.1.1.1, h.1.1.2, h.1.2, h.2⟩

omit [DecidableEq ι] in
theorem Orderly.onOne (h : Orderly requests s action) : OrderlyOnOne requests s action := by
  cases action with
  | access i now pos => trivial
  | reserve i => exact h
  | apply i env =>
    intro rec v hi
    exact (h rec v hi).imp (fun h => ⟨h.1, h.2.1, h.2.2.2⟩) fun ⟨j, r, w, hj, _, hlt⟩ =>
      ⟨j, r, w, hj, hlt⟩

def opened (db : BaseStore) : Shared (Fin 2) := { base := db, part := newPartition ordersSpec }

theorem opened_settled {requests : Fin 2 → Request} (db : BaseStore)
    (hscope : ∀ i, InScope ordersSpec.toProjectionSpec (requests i)) :
    Settled requests (opened db) :=
  settled_of_reach (.start : Partition.Reach Partition.Step.Any ordersSpec _) le_rfl hscope db
    ⟨fun _ _ hl => (by cases hl), fun _ _ hl => (by cases hl), fun _ _ he => (by cases he),
      fun _ _ _ _ => Finset.notMem_empty _⟩

instance (spec : ProjectionSpec) (request : Request) : Decidable (InScope spec request) :=
  decidable_of_iff (trimSpace request.record.domain = spec.domain ∧
    trimSpace request.record.collection = spec.collection ∧
      trimSpace request.record.organizationID ≠ "")
    ⟨fun h => ⟨h.1, h.2.1, h.2.2⟩, fun h => ⟨h.domain, h.collection, h.organizationID⟩⟩

instance (phase : Phase) : Decidable phase.Done :=
  match phase with
  | .missed => isTrue (.inl rfl)
  | .returned rec v => isTrue (.inr ⟨rec, v, rfl⟩)
  | .ready | .holding _ | .reserved .. => isFalse (by rintro (h | ⟨_, _, h⟩) <;> cases h)

def twoUpserts (i : Fin 2) : Request := ⟨.upsert, order (if i = 0 then "a" else "b") "open"⟩

theorem interleaved_calls_agree_overlapping :
    ∃ s, Reached (exec twoUpserts) (Orderly twoUpserts) (opened .empty) s ∧
      ∀ i, (s.part.idle.entry (twoUpserts i).key).map (·.record) =
        s.base.records.lookup (twoUpserts i).target := by
  obtain ⟨s, hs, hdone⟩ := Reached.exists_of_run (exec twoUpserts) (checked twoUpserts)
    (fun s => decide (∀ i, (s.phase i).Done ∧ s.phase i ≠ .missed)) (opened .empty)
    [.access 0 1 (by decide), .access 1 2 (by decide), .reserve 0, .reserve 1, .apply 0 (.steady 0),
      .apply 1 (.steady 1)] (fun _ _ => orderly_of_checked) (by decide +kernel) (by decide +kernel)
  have hdone := of_decide_eq_true hdone
  exact ⟨s, hs, fun i => interleaved_calls_agree (opened_settled .empty (by decide)) hs
    (fun j => (hdone j).1) i (hdone i).2⟩

/-- The second call's apply raises the shared fence, which then drops the first call's
event, although it is about another record. -/
theorem interleaved_call_lost : ∃ s, runSteps (exec twoUpserts) (opened .empty)
      [.access 0 1 (by decide), .access 1 2 (by decide), .reserve 0, .reserve 1,
        .apply 1 (.steady 1),
        .apply 0 (.steady 0)] = some s ∧ (∀ i, (s.phase i).Done ∧ s.phase i ≠ .missed) ∧
    (s.part.idle.entry (twoUpserts 0).key).map (·.record) ≠
      s.base.records.lookup (twoUpserts 0).target := by
  have hex : (runSteps (exec twoUpserts) (opened .empty)
      [.access 0 1 (by decide), .access 1 2 (by decide), .reserve 0, .reserve 1,
        .apply 1 (.steady 1),
        .apply 0 (.steady 0)]).any (fun s => decide ((∀ i, (s.phase i).Done ∧ s.phase i ≠ .missed) ∧
    (s.part.idle.entry (twoUpserts 0).key).map (·.record) ≠
      s.base.records.lookup (twoUpserts 0).target)) = true := by
    decide +kernel
  obtain ⟨s, hs, hbad⟩ := (Option.any_eq_true _ _).mp hex
  exact ⟨s, hs, of_decide_eq_true hbad⟩

def readAndUpsert (i : Fin 2) : Request := ⟨if i = 0 then .read else .upsert, order "a" "paid"⟩

def heldBase : BaseStore := BaseStore.empty.put 1 (by decide) (order "a" "open") (by decide)

/-- The read finds what the upsert has written, and both are applied after both have reserved. -/
theorem readThrough_not_stale_overlapping :
    ∃ s, Reached (exec readAndUpsert) (OrderlyOnOne readAndUpsert) (opened heldBase) s ∧
      ∀ i, NotStale s (readAndUpsert i) := by
  obtain ⟨s, hs, hdone⟩ := Reached.exists_of_run (exec readAndUpsert) (checked readAndUpsert)
    (fun s => decide (∀ i, (s.phase i).Done)) (opened heldBase)
    [.access 1 2 (by decide), .access 0 3 (by decide), .reserve 0, .reserve 1, .apply 0 (.steady 0),
      .apply 1 (.steady 1)] (fun _ _ => orderly_of_checked) (by decide +kernel) (by decide +kernel)
  have hs := hs.mono fun _ _ => Orderly.onOne
  have hstart : ∀ i, NotStale (opened heldBase) (readAndUpsert i) := fun i e he => by cases he
  exact ⟨s, hs, readThrough_not_stale (opened_settled heldBase (by decide)) (by decide) hstart hs
    (of_decide_eq_true hdone)⟩

/-- The read projects the value it found before the upsert under a version after it. -/
theorem readThrough_stale : ∃ s, runSteps (exec readAndUpsert) (opened heldBase)
      [.access 0 2 (by decide), .access 1 3 (by decide), .reserve 1,
        .apply 1 (.steady 1), .reserve 0,
        .apply 0 (.steady 0)] = some s ∧ (∀ i, (s.phase i).Done) ∧
          ¬ NotStale s (readAndUpsert 0) := by
  have hex : (runSteps (exec readAndUpsert) (opened heldBase)
      [.access 0 2 (by decide), .access 1 3 (by decide), .reserve 1,
        .apply 1 (.steady 1), .reserve 0,
        .apply 0 (.steady 0)]).any (fun s => decide ((∀ i, (s.phase i).Done) ∧
      (s.part.idle.entry (readAndUpsert 0).key).isSome = true ∧
      (s.part.idle.entry (readAndUpsert 0).key).map (·.record) ≠
        s.base.records.lookup (readAndUpsert 0).target)) = true := by
    decide +kernel
  obtain ⟨s, hs, hbad⟩ := (Option.any_eq_true _ _).mp hex
  obtain ⟨hdone, hsome, hne⟩ := of_decide_eq_true hbad
  obtain ⟨e, he⟩ := Option.isSome_iff_exists.mp hsome
  refine ⟨s, hs, hdone, fun hns => hne ?_⟩
  rw [he, hns e he]
  rfl

end Foundation.Hermes.Interleaving
