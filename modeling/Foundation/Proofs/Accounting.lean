import Foundation.Sanity.Balance
import Foundation.Sanity.Ledger

/-! What a partition keeps count of: its records and bytes, and the sources behind its
replay fences. -/

namespace Foundation.Hermes.Partition

open Go

/-! ### Records and bytes -/

/-- In every reachable state the counters are those of the live records and within the spec,
and no live key has a tombstone; an event that is rejected or ignored changes none of it. -/
theorem resources_accounted {spec : NormalSpec} {p : Partition} (h : Reach Step.Any spec p) :
    p.records = p.registry.records.keys.card ∧
      p.bytes = p.registry.records.total (fun entry => estimateRecordBytes entry.record) ∧
      p.records ≤ spec.maxRecords ∧ p.bytes ≤ spec.maxBytes ∧
      (∀ key, key ∈ p.registry.records → key ∉ p.tombstones) ∧
      ∀ (w : Progress) (now : Time) (event : Event), w.Refused now event →
        w.batch.SameContents (w.applyOne now event).batch := by
  obtain ⟨hk, hspec⟩ := h.keyed
  have hb := h.balanced
  have hbytes : p.registry.records.total (·.bytes) =
      p.registry.records.total (fun entry => estimateRecordBytes entry.record) := by
    refine Finset.sum_congr rfl fun key hkey => ?_
    obtain ⟨entry, he⟩ := (GoMap.mem_keys_iff _ _).mp hkey
    rw [he]
    exact hk.bytes_eq key entry he
  refine ⟨hb.records_eq, hb.bytes_eq.trans hbytes, hspec ▸ hb.records_le, hspec ▸ hb.bytes_le,
    fun key hkey => hb.apart key ?_, fun w now event => Progress.applyOne_refused⟩
  obtain ⟨entry, he⟩ := Finmap.mem_iff.mp hkey
  rw [idle, Batch.entry, he]
  exact Option.some_ne_none entry

def upsertThenLoad : List Step :=
  [.applyBatch (.steady 1) [⟨.upsert, "a:1", 1, order "a" "open"⟩],
    .bulkLoad (.steady 2) [order "b" "open", order "c" "paid"]]

theorem resources_accounted_after_load :
    ((newPartition ordersSpec).execAll upsertThenLoad).records = 2 ∧
      ((newPartition ordersSpec).execAll upsertThenLoad).registry.records.keys.card = 2 := by
  have hrecords :=
    (resources_accounted (Reach.execAll (.start : Reach Step.Any ordersSpec _) upsertThenLoad)).1
  have hcount : ((newPartition ordersSpec).execAll upsertThenLoad).records = 2 := by
    decide +kernel
  exact ⟨hcount, by exact_mod_cast hrecords.symm.trans hcount⟩

/-! ### Sources and fences -/

/-- The versions sources were remembered with, after one round of the event loop. -/
def noteOne (now : Time) (w : Progress) (event : Event) (noted : String → ℕ) : String → ℕ :=
  match w.batch.applyEventLocked now event with
  | .error _ => noted
  | .ok (state, version, _) =>
    if state = .duplicate then noted
    else w.batch.part.noting noted (trimSpace event.sourceID) version

def noteLoop (env : Env) : ℕ → Progress → (String → ℕ) → List Event → String → ℕ
  | _, _, noted, [] => noted
  | i, w, noted, event :: rest =>
    if env.ctxDone i then noted
    else noteLoop env (i + 1) (w.applyOne (env.clock i) event)
      (noteOne (env.clock i) w event noted) rest

def Step.note (p : Partition) (noted : String → ℕ) : Step → String → ℕ
  | .applyBatch env events =>
    if env.ctxDone 0 then noted else noteLoop env 1 (p.startBatch env) noted events
  | .applyRecords env sourcePrefix baseVersion records =>
    if env.ctxDone 0 then noted
    else noteLoop env 1 (p.startBatch env) noted
      (records.mapIdx (recordEvent sourcePrefix baseVersion))
  | .bulkLoad _ _ => noted

/-- A reachable partition with the versions its sources were remembered with. -/
inductive Recorded (C : Partition → Step → Prop) (spec : NormalSpec) : Partition →
  (String → ℕ) → Prop
  | start : Recorded C spec (newPartition spec) fun _ => 0
  | step {p : Partition} {noted : String → ℕ} (s : Step) : Recorded C spec p noted → C p s →
      Recorded C spec (p.exec s) (s.note p noted)

variable {p : Partition} {noted : String → ℕ}

theorem Recorded.reach {C : Partition → Step → Prop} {spec : NormalSpec}
    (h : Recorded C spec p noted) : Reach C spec p := by
  induction h with
  | start => exact .start
  | step s _ hc ih => exact ih.step s hc

/-- A bulk load that goes through finds no fence. -/
def Unfenced (p : Partition) : Step → Prop
  | .bulkLoad env records => env.ctxDone 0 = false →
    ∀ loaded, p.bulkLoad env records = .ok loaded → p.watermarks = ∅
  | _ => True

theorem Settles.mutates {b b' : Batch} {m : AppliedMutation} (h : b.part.Settles noted)
    (hm : b.Mutates m b') : b'.part.Settles noted ∧ b'.part.applied = b.part.applied := by
  cases hm with
  | store entry => exact ⟨h.congr (by simp) (by simp) (by simp) (by simp), by simp⟩
  | bury source => exact ⟨h.congr (by simp) (by simp) (by simp) (by simp), by simp⟩

theorem settles_applyOne {w : Progress} (hk : w.batch.Keyed) (h : w.batch.part.Settles noted)
    (now : Time) (event : Event) :
    (w.applyOne now event).batch.part.Settles (noteOne now w event noted) := by
  unfold Progress.applyOne noteOne
  cases he : w.batch.applyEventLocked now event with
  | error e => exact h
  | ok r =>
    obtain ⟨state, version, b⟩ := r
    dsimp only
    rcases Batch.applyEventLocked_ok hk he with
      ⟨rfl, rfl, -⟩ | ⟨-, -, ⟨rfl, rfl⟩ | ⟨rfl, -, mid, rfl, hm⟩⟩
    · rw [if_pos rfl]
      exact h
    · rw [if_neg (by decide)]
      exact h.remember _ _
    · rw [if_neg (by decide)]
      have hmid := h.mutates hm
      have hnoting : w.batch.part.noting noted = mid.part.noting noted := by
        unfold noting
        rw [hmid.2]
      have hrem := hmid.1.remember (trimSpace event.sourceID) version
      rw [hnoting, Progress.settle_applied_batch, Batch.observe, Batch.remember]
      dsimp only
      generalize mid.part.rememberAppliedLocked (trimSpace event.sourceID) version = q at hrem
      exact hrem.congr rfl rfl rfl rfl

theorem settles_loop (env : Env) (i : ℕ) (events : List Event) {w : Progress} (hk : w.batch.Keyed)
    (h : w.batch.part.Settles noted) :
    (Progress.applyLoop env i w events).batch.part.Settles (noteLoop env i w noted events) := by
  induction events generalizing i w noted with
  | nil => exact h
  | cons event rest ih =>
    unfold noteLoop
    cases hc : env.ctxDone i with
    | true =>
      rw [Progress.applyLoop, if_pos hc, if_pos rfl]
      exact h
    | false =>
      rw [Progress.applyLoop_cons hc, if_neg (by decide)]
      exact ih _ (Progress.applyOne_keyed hk _ _) (settles_applyOne hk h _ _)

theorem settles_startBatch (hk : p.idle.Keyed) (h : p.Settles noted) (env : Env) :
    (p.startBatch env).batch.Keyed ∧ (p.startBatch env).batch.part.Settles noted :=
  Progress.evictExpired_rule (P := fun w => w.batch.part.Settles noted) env
    (fun _ hw _ _ hm _ _ => (hw.mutates hm).1) hk h

theorem settles_applyBatch (hk : p.idle.Keyed) (h : p.Settles noted) (env : Env)
    (events : List Event) :
    (p.applyBatchObserving env events).part.Settles
      (noteLoop env 1 (p.startBatch env) noted events) := by
  obtain ⟨hk', hs⟩ := settles_startBatch hk h env
  have hloop := settles_loop env 1 events hk' hs
  unfold applyBatchObserving
  obtain ⟨indexes, epoch, heq⟩ :=
    Progress.finish_eq (w := Progress.applyLoop env 1 (p.startBatch env) events)
  rw [heq]
  exact hloop.congr rfl rfl rfl rfl

theorem newPartition_settles (spec : NormalSpec) : (newPartition spec).Settles fun _ => 0 := by
  refine ⟨⟨fun pre => rfl, fun pre fence hl => (by cases hl), fun s hs => ?_⟩, List.nodup_nil, rfl,
    spec.maxAppliedEvents_pos.le⟩
  exact absurd hs (List.not_mem_nil)

theorem bulkSwap_settles {env : Env} {records : List DomainRecord} {load : BulkState}
    (hempty : p.watermarks = ∅) (hload : bulkStream env p.spec records = .ok load) :
    (p.bulkSwap load).Settles noted := by
  obtain ⟨hi, -⟩ := bulkLoop_ok (bulkInv_start p.spec) hload
  have hnew := newPartition_settles p.spec
  refine ⟨⟨fun pre => ?_, fun pre fence hl => ?_, fun s hs => ?_⟩, ?_, ?_, ?_⟩
  · rw [bulkSwap, hempty, hi.applyOrder]
    rfl
  · rw [bulkSwap, hempty] at hl
    cases hl
  · rw [bulkSwap, hi.applyOrder] at hs
    exact absurd hs List.not_mem_nil
  · rw [bulkSwap, hi.applyOrder]
    exact List.nodup_nil
  · rw [bulkSwap, hi.applyOrder, hi.applied]
    rfl
  · rw [bulkSwap, hi.applyOrder]
    exact p.spec.maxAppliedEvents_pos.le

theorem Recorded.settles {spec : NormalSpec} (h : Recorded Unfenced spec p noted) :
    p.Settles noted := by
  induction h with
  | start => exact newPartition_settles spec
  | @step p noted s hp hc ih =>
    have hk := hp.reach.keyed.1
    cases s with
    | applyBatch env events =>
      rw [exec, Step.note]
      split_ifs
      · exact ih
      · exact settles_applyBatch hk ih env events
    | applyRecords env sourcePrefix baseVersion records =>
      rw [exec, Step.note]
      split_ifs
      · exact ih
      · exact settles_applyBatch hk ih env _
    | bulkLoad env records =>
      rw [exec, Step.note]
      split_ifs with hctx
      · exact ih
      · cases hb : p.bulkLoad env records with
        | error e => exact ih
        | ok r =>
          obtain ⟨q, result⟩ := r
          obtain ⟨load, hload, rfl⟩ := bulkLoad_ok hb
          exact bulkSwap_settles (hc (by simpa using hctx) _ hb) hload

theorem sourcesOf_eq_card {order : List String} (hn : order.Nodup) (pre : String) :
    sourcesOf pre order = (order.toFinset.filter fun source => sourceWatermarkPrefix source =
      some pre).card := by
  rw [sourcesOf, List.countP_eq_length_filter, ← List.toFinset_card_of_nodup (hn.filter _),
    List.toFinset_filter]
  simp only [decide_eq_true_eq]

/-- As long as no bulk load that goes through meets a fence, the remembered sources are those in
order, each once and within the bound, and the fences are exactly theirs. -/
theorem fences_accounted {spec : NormalSpec} {p : Partition} {noted : String → ℕ}
    (h : Recorded Unfenced spec p noted) :
    p.applied = p.applyOrder.toFinset ∧ p.applyOrder.Nodup ∧
      (p.applyOrder.length : ℤ) ≤ spec.maxAppliedEvents ∧
      ∀ pre, (pre ∈ p.watermarks ↔ ∃ source ∈ p.applied, sourceWatermarkPrefix source = some pre) ∧
        ∀ fence, p.watermarks.lookup pre = some fence →
          fence.refs = (p.applied.filter fun source => sourceWatermarkPrefix source =
            some pre).card ∧
          ∀ source ∈ p.applied, sourceWatermarkPrefix source = some pre →
            noted source ≤ fence.version := by
  obtain ⟨htally, hnodup, happlied, hbound⟩ := h.settles
  rw [h.reach.keyed.2] at hbound
  refine ⟨happlied, hnodup, hbound, fun pre => ⟨?_, fun fence hl => ⟨?_, fun source hs hp => ?_⟩⟩⟩
  · have hrefs := htally.refs pre
    rw [Finmap.mem_iff]
    constructor
    · rintro ⟨fence, hl⟩
      have hpos := htally.pos pre fence hl
      rw [hl, Option.map_some, Option.getD_some] at hrefs
      obtain ⟨source, hs, hp⟩ := List.countP_pos_iff.mp (by omega : 0 < sourcesOf pre p.applyOrder)
      exact ⟨source, happlied ▸ List.mem_toFinset.mpr hs, of_decide_eq_true hp⟩
    · rintro ⟨source, hs, hp⟩
      rw [happlied, List.mem_toFinset] at hs
      have hpos := sourcesOf_pos hs hp
      cases hl : p.watermarks.lookup pre with
      | some fence => exact ⟨fence, rfl⟩
      | none =>
        rw [hl, Option.map_none, Option.getD_none] at hrefs
        omega
  · have hrefs := htally.refs pre
    rw [hl, Option.map_some, Option.getD_some] at hrefs
    rw [hrefs, sourcesOf_eq_card hnodup, ← happlied]
  · rw [happlied, List.mem_toFinset] at hs
    exact htally.version source hs pre fence hp hl

def fencedUpsert : Step := .applyBatch (.steady 1) [⟨.upsert, "src:1", 1, order "a" "open"⟩]

theorem fences_accounted_after_upsert :
    "src" ∈ ((newPartition ordersSpec).exec fencedUpsert).watermarks := by
  have hrec : Recorded Unfenced ordersSpec ((newPartition ordersSpec).exec fencedUpsert)
      (fencedUpsert.note (newPartition ordersSpec) fun _ => 0) :=
    Recorded.start.step fencedUpsert trivial
  refine ((fences_accounted hrec).2.2.2 "src").1.mpr ⟨"src:1", ?_, ?_⟩
  · decide +kernel
  · decide +kernel

/-- A bulk load empties the sources and leaves their fence. -/
theorem fence_outlives_sources : ∃ p noted, Recorded (fun _ _ => True) ordersSpec p noted ∧
    "src" ∈ p.watermarks ∧ ¬ ∃ source ∈ p.applied, sourceWatermarkPrefix source = some "src" := by
  refine ⟨_, _, (Recorded.start.step fencedUpsert trivial).step (.bulkLoad (.steady 2) []) trivial,
    ?_, ?_⟩
  · decide +kernel
  · decide +kernel

end Foundation.Hermes.Partition
