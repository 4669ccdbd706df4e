import Foundation.Sanity.Bulk
import Foundation.Sanity.Ledger
import Foundation.Spec.Steps

/-! The induction rules for the states a partition reaches: a property that survives every
batch and every bulk load holds in all of them. -/

namespace Foundation.Hermes.Partition

open Go

/-- A call whose events all meet `E` in the state they find, or a bulk load that meets `B`. -/
def Step.Meets (E : Batch → Event → Prop) (B : Partition → List DomainRecord →
  Prop) (p : Partition) :
    Step → Prop
  | .applyBatch env events => Progress.Meets E env 1 (p.startBatch env) events
  | .applyRecords env sourcePrefix baseVersion records =>
    Progress.Meets E env 1 (p.startBatch env)
      (records.mapIdx (recordEvent sourcePrefix baseVersion))
  | .bulkLoad _ records => B p records

def Step.Any (_ : Partition) (_ : Step) : Prop := True

variable {p : Partition} {spec : NormalSpec}

theorem Step.Any.meets {s : Step} (h : Step.Any p s) :
    s.Meets (fun _ _ => True) (fun _ _ => True) p := by
  cases s with
  | applyBatch env events => exact Progress.meets_true _ _ _ _
  | applyRecords env sourcePrefix baseVersion records => exact Progress.meets_true _ _ _ _
  | bulkLoad env records => exact h

theorem bulkLoad_ok {env : Env} {p q : Partition} {records : List DomainRecord}
    {result : ApplyResult} (h : p.bulkLoad env records = .ok (q, result)) :
    ∃ s, bulkStream env p.spec records = .ok s ∧ q = p.bulkSwap s := by
  obtain ⟨s, hs, hout⟩ := except_bind_eq_ok h
  exact ⟨s, hs, (Prod.mk.inj (Except.ok.inj hout)).1.symm⟩

/-- What a call does: nothing, one batch of events that meet `E`, or the swap of a load. -/
theorem exec_cases {E : Batch → Event → Prop} {B : Partition → List DomainRecord → Prop} {s : Step}
    (h : s.Meets E B p) : p.exec s = p ∨
      (∃ env events, Progress.Meets E env 1 (p.startBatch env) events ∧
        p.exec s = (p.applyBatchObserving env events).part) ∨
      ∃ env records load, B p records ∧ bulkStream env p.spec records = .ok load ∧
        p.exec s = p.bulkSwap load := by
  cases s with
  | applyBatch env events =>
    rw [exec]
    split_ifs
    · exact .inl rfl
    · exact .inr (.inl ⟨env, events, h, rfl⟩)
  | applyRecords env sourcePrefix baseVersion records =>
    rw [exec]
    split_ifs
    · exact .inl rfl
    · exact .inr (.inl ⟨env, _, h, rfl⟩)
  | bulkLoad env records =>
    rw [exec]
    split_ifs
    · exact .inl rfl
    · cases hb : p.bulkLoad env records with
      | error e => exact .inl rfl
      | ok r =>
        obtain ⟨q, result⟩ := r
        obtain ⟨load, hload, rfl⟩ := bulkLoad_ok hb
        exact .inr (.inr ⟨env, records, load, h, hload, rfl⟩)

/-- The induction rule for bulk loads: every visited record is stored. -/
theorem bulkStream_rule {Q : BulkState → Prop} {env : Env} {records : List DomainRecord}
    {load : BulkState} (start : Q { batch := (newPartition spec).idle })
    (visit : ∀ s entry, BulkInv spec s → Q s → entry.version = s.version → s.batch.Fits entry →
      Q ⟨s.batch.store entry, s.version + 1, s.version,
      { s.result with applied := s.result.applied + 1 }⟩)
    (h : bulkStream env spec records = .ok load) : BulkInv spec load ∧ Q load := by
  have hloop : ∀ (records : List DomainRecord) (i : ℕ) (s : BulkState), BulkInv spec s → Q s →
      bulkLoop env i s records = .ok load → BulkInv spec load ∧ Q load := by
    intro records
    induction records with
    | nil =>
      intro i s hi hq h
      exact Except.ok.inj h ▸ ⟨hi, hq⟩
    | cons rec rest ih =>
      intro i s hi hq h
      obtain ⟨entry, -, hv, hf, h⟩ := bulkLoop_cons_ok hi h
      exact ih _ _ (hi.visit hv hf) (visit _ _ hi hq hv hf) h
  exact hloop records 1 _ (bulkInv_start spec) start h

theorem applyBatchObserving_keyed (hk : p.idle.Keyed) (env : Env) (events : List Event) :
    (p.applyBatchObserving env events).part.idle.Keyed ∧
      (p.applyBatchObserving env events).part.spec = p.spec := by
  have hrules : Progress.Rules (fun _ _ => True) (fun w => w.batch.part.spec = p.spec) := by
    constructor
    · rintro w w' - hw - - (hb | ⟨source, version, hb⟩)
      · rw [hb, hw]
      · rw [hb, Batch.remember_spec, hw]
    · intro w w' event mid _ hw _ hm _ _ hb
      rw [hb, Batch.observe_spec, Batch.remember_spec, hm.spec_eq, hw]
    · intro w w' now entry _ hw _ _ hm _ _
      rw [hm.spec_eq, hw]
  obtain ⟨w, hk', hspec, hout⟩ := hrules.batch hk rfl (Progress.meets_true env 1 _ events)
  rw [hout, Progress.finish_spec]
  exact ⟨Progress.finish_keyed hk', hspec⟩

theorem newPartition_keyed (spec : NormalSpec) : (newPartition spec).idle.Keyed :=
  (bulkInv_start spec).keyed

/-- Every reachable partition keeps its spec and its entries under their keys. -/
theorem Reach.keyed {C : Partition → Step → Prop} (h : Reach C spec p) :
    p.idle.Keyed ∧ p.spec = spec := by
  induction h with
  | start => exact ⟨newPartition_keyed spec, rfl⟩
  | @step p s _ _ ih =>
    rcases exec_cases (Step.Any.meets (p := p) (s := s) trivial) with heq | ⟨env, events, -, heq⟩ |
      ⟨env, records, load, -, hload, heq⟩
    · rw [heq]
      exact ih
    · rw [heq]
      obtain ⟨hk, hs⟩ := applyBatchObserving_keyed ih.1 env events
      exact ⟨hk, hs.trans ih.2⟩
    · rw [heq]
      exact ⟨bulkSwap_keyed (bulkLoop_ok (bulkInv_start _) hload).1, ih.2⟩

theorem Reach.rule {E : Batch → Event → Prop} {B : Partition → List DomainRecord → Prop}
    {P : Partition → Prop} (start : P (newPartition spec))
    (batch : ∀ p env events, p.idle.Keyed → p.spec = spec → P p →
      Progress.Meets E env 1 (p.startBatch env) events → P (p.applyBatchObserving env events).part)
    (bulk : ∀ p env records load, p.idle.Keyed → p.spec = spec → P p → B p records →
      bulkStream env p.spec records = .ok load → P (p.bulkSwap load))
    (h : Reach (fun p s => s.Meets E B p) spec p) : P p := by
  induction h with
  | start => exact start
  | @step p s hp hc ih =>
    obtain ⟨hk, hs⟩ := hp.keyed
    rcases exec_cases hc with heq | ⟨env, events, hm, heq⟩ | ⟨env, records, load, hb, hload, heq⟩
    · rw [heq]
      exact ih
    · rw [heq]
      exact batch p env events hk hs ih hm
    · rw [heq]
      exact bulk p env records load hk hs ih hb hload

theorem Reach.mono {C D : Partition → Step → Prop} (hsub : ∀ p s, C p s → D p s)
    (h : Reach C spec p) : Reach D spec p := by
  induction h with
  | start => exact .start
  | step s _ hc ih => exact ih.step s (hsub _ _ hc)

theorem Reach.execAll (h : Reach Step.Any spec p) (steps : List Step) :
    Reach Step.Any spec (p.execAll steps) := by
  induction steps generalizing p with
  | nil => exact h
  | cons s rest ih => exact ih (h.step s trivial)

/-! ### The ledger in every reachable state -/

theorem Accounted.remembered (h : p.Accounted) (source : String) (version : ℕ) :
    (p.rememberAppliedLocked source version).Accounted := by
  unfold rememberAppliedLocked
  split_ifs with hskip
  · exact h
  · rw [not_or] at hskip
    have hnew : source ∉ p.applyOrder := fun hm => hskip.2 (h.applied_eq ▸ List.mem_toFinset.mpr hm)
    obtain ⟨hnodup, happlied⟩ := remembered_push h.nodup h.applied_eq hnew
    obtain ⟨hcounted, -⟩ := evictApplied_spec p.spec.maxAppliedEvents_pos (insert source p.applied)
      (h.counted.count source version)
    obtain ⟨hn, ha⟩ :=
      evictApplied_nodup p.spec.maxAppliedEvents (countSource p.watermarks source version)
      hnodup happlied
    exact ⟨hcounted, hn, ha⟩

theorem Accounted.mutates {b b' : Batch} {m : AppliedMutation} (h : b.part.Accounted)
    (hm : b.Mutates m b') :
    b'.part.Accounted := by
  cases hm with
  | store entry => exact h.of_eq (by simp) (by simp) (by simp)
  | bury source => exact h.of_eq (by simp) (by simp) (by simp)

theorem Accounted.observe {b : Batch} (h : b.part.Accounted) (version : ℕ) :
    (b.observe version).part.Accounted :=
  ⟨h.counted, h.nodup, h.applied_eq⟩

theorem Accounted.remember_batch {b : Batch} (h : b.part.Accounted) (source : String)
    (version : ℕ) : (b.remember source version).part.Accounted := by
  rw [Batch.remember_part]
  exact h.remembered source version

theorem accounted_rules : Progress.Rules (fun _ _ => True) fun w => w.batch.part.Accounted := by
  constructor
  · rintro w w' - hw - - (hb | ⟨source, version, hb⟩)
    · rw [hb]
      exact hw
    · rw [hb]
      exact hw.remember_batch source version
  · intro w w' event mid _ hw _ hm _ _ hb
    rw [hb]
    exact ((hw.mutates hm).remember_batch _ _).observe _
  · intro w w' now entry _ hw _ _ hm _ _
    exact hw.mutates hm

theorem Reach.accounted (h : Reach Step.Any spec p) : p.Accounted := by
  refine Reach.rule (E := fun _ _ => True) (B := fun _ _ => True)
    (newPartition_accounted spec) ?_ ?_
    (h.mono fun _ _ => Step.Any.meets)
  · intro p env events hk _ hp hm
    obtain ⟨w, -, hw, hout⟩ := accounted_rules.batch (p := p) hk hp hm
    obtain ⟨indexes, epoch, heq⟩ := w.finish_eq
    rw [hout, heq]
    exact hw.of_eq rfl rfl rfl
  · intro p env records load _ _ hp _ hload
    obtain ⟨hi, -⟩ := bulkLoop_ok (bulkInv_start p.spec) hload
    refine ⟨⟨fun pre hpos => ?_, hp.counted.pos⟩, ?_, ?_⟩
    · rw [bulkSwap, hi.applyOrder] at hpos
      exact absurd hpos (by simp [sourcesOf])
    · rw [bulkSwap, hi.applyOrder]
      exact List.nodup_nil
    · rw [bulkSwap, hi.applyOrder, hi.applied]
      rfl

end Foundation.Hermes.Partition
