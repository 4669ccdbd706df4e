import Foundation.Sanity.Forward

/-! What a finished batch and a finished bulk load leave in the partition. -/

namespace Foundation.Hermes

open Go

/-- A partition seen outside any batch. -/
def Partition.idle (p : Partition) : Batch := ⟨p, ∅⟩

namespace Progress

variable (w : Progress)

theorem finish_eq : ∃ indexes epoch, w.finishApplyLocked.part =
    { w.batch.part with
      registry := { w.batch.part.registry with indexes := indexes }, epoch := epoch } := by
  unfold finishApplyLocked
  split_ifs
  · exact ⟨_, _, rfl⟩
  · exact ⟨w.batch.part.registry.indexes, w.batch.part.epoch, rfl⟩

@[simp] theorem finish_accepted : w.finishApplyLocked.accepted = w.accepted := by
  unfold finishApplyLocked
  split_ifs <;> rfl

@[simp] theorem finish_entry (key : String) :
    w.finishApplyLocked.part.idle.entry key = w.batch.entry key := by
  obtain ⟨_, _, h⟩ := w.finish_eq
  simp [Partition.idle, Batch.entry, h]

@[simp] theorem finish_spec : w.finishApplyLocked.part.spec = w.batch.part.spec := by
  obtain ⟨_, _, h⟩ := w.finish_eq
  rw [h]

theorem finish_keyed {w : Progress} (h : w.batch.Keyed) : w.finishApplyLocked.part.idle.Keyed := by
  constructor <;> intro key e he <;> rw [finish_entry] at he
  · exact h.key_eq key e he
  · exact h.normal key e he
  · rw [Partition.idle, finish_spec]; exact h.domain_eq key e he
  · rw [Partition.idle, finish_spec]; exact h.collection_eq key e he
  · exact h.bytes_eq key e he
  · rw [Partition.idle, finish_spec]; exact h.lasting key e he

end Progress

variable {env : Env} {spec : NormalSpec} {s s' : BulkState}

namespace Partition

theorem startBatch_of_no_ttl {p : Partition} (h : p.spec.ttl ≤ 0) :
    p.startBatch env = { batch := p.idle, result := { epoch := p.epoch } } := by
  rw [startBatch, Progress.evictExpiredLocked, if_pos h]
  rfl

/-! ### Bulk loads -/

/-- The state of a bulk load: nothing but stored entries, all below the next version. -/
structure BulkInv (spec : NormalSpec) (s : BulkState) : Prop where
  keyed : s.batch.Keyed
  spec_eq : s.batch.part.spec = spec
  below : ∀ key e, s.batch.entry key = some e → e.version < s.version
  tombstones : s.batch.part.tombstones = ∅
  tombOrder : s.batch.part.tombOrder = []
  applied : s.batch.part.applied = ∅
  applyOrder : s.batch.part.applyOrder = []

theorem bulkInv_start (spec : NormalSpec) : BulkInv spec { batch := (newPartition spec).idle } := by
  refine ⟨?_, rfl, ?_, rfl, rfl, rfl, rfl⟩
  · constructor <;> intro key e he <;> cases he
  · intro key e he
    cases he

theorem bulkVisit_ok {now : Time} {rec : DomainRecord} (hi : BulkInv spec s)
    (h : bulkVisit now s rec = .ok s') :
    ∃ out, normalizeRecord now rec = .ok out ∧
      s.batch.Fits ⟨out, "", s.version, estimateRecordBytes out, s.batch.part.expiry now⟩ ∧
      s' = ⟨s.batch.store ⟨out, "", s.version, estimateRecordBytes out, s.batch.part.expiry now⟩,
        s.version + 1, s.version, { s.result with applied := s.result.applied + 1 }⟩ := by
  obtain ⟨out, hout, h⟩ := except_bind_eq_ok h
  obtain ⟨_, hscope, h⟩ := except_bind_eq_ok h
  obtain ⟨⟨state, b⟩, hup, h⟩ := except_bind_eq_ok h
  have hn := normalizeRecord_ok hout
  unfold Batch.validateRecordScope at hscope
  split_ifs at hscope with hsc
  rw [not_or, not_ne_iff, not_ne_iff] at hsc
  have hblock : s.batch.part.blockedByNewerTombstoneLocked (keyOf out) s.version = false := by
    simp [blockedByNewerTombstoneLocked, hi.tombstones]
  have hold : ¬ ((s.batch.entry (keyOf out)).any fun existing => s.version < existing.version) =
      true := by
    cases he : s.batch.entry (keyOf out) with
    | none => simp
    | some old => simpa using (hi.below _ old he).le
  rcases Batch.upsertLocked_ok hn.1 hsc.1 hsc.2 hup with ⟨rfl, rfl⟩ | ⟨rfl, hf, rfl⟩
  · exfalso
    unfold Batch.upsertLocked at hup
    rw [if_neg (by rw [hblock]; simp), if_neg hold] at hup
    split_ifs at hup
    cases hup
  · refine ⟨out, hout, hf, ?_⟩
    cases h
    rfl

theorem BulkInv.visit {s : BulkState} {entry : RecordEntry} {result : ApplyResult}
    (hi : BulkInv spec s) (hv : entry.version = s.version) (hf : s.batch.Fits entry) :
    BulkInv spec ⟨s.batch.store entry, s.version + 1, s.version, result⟩ := by
  refine ⟨hi.keyed.store hf, (Batch.store_spec _ _).trans hi.spec_eq, ?_, ?_, ?_, ?_, ?_⟩
  · intro key e he
    rw [Batch.store_entry] at he
    split_ifs at he
    · cases he
      exact hv ▸ Nat.lt_succ_self _
    · exact (hi.below key e he).trans (Nat.lt_succ_self _)
  · rw [Batch.store_tombstones, hi.tombstones]
    split_ifs
    · exact Finmap.ext_lookup fun k => by rw [GoMap.lookup_erase_if]; split_ifs <;> rfl
    · rfl
  · rw [Batch.store_tombOrder, hi.tombOrder]
  · rw [Batch.store_applied, hi.applied]
  · rw [Batch.store_applyOrder, hi.applyOrder]

/-- A bulk load that finishes has stored its first record and goes on with the rest. -/
theorem bulkLoop_cons_ok {i : ℕ} {rec : DomainRecord} {rest : List DomainRecord}
    (hi : BulkInv spec s) (h : bulkLoop env i s (rec :: rest) = .ok s') :
    ∃ entry, normalizeRecord (env.clock i) rec = .ok entry.record ∧ entry.version = s.version ∧
      s.batch.Fits entry ∧ bulkLoop env (i + 1) ⟨s.batch.store entry, s.version + 1, s.version,
        { s.result with applied := s.result.applied + 1 }⟩ rest = .ok s' := by
  unfold bulkLoop at h
  split_ifs at h
  cases hvis : bulkVisit (env.clock i) s rec with
  | error e =>
    rw [hvis] at h
    cases h
  | ok mid =>
    rw [hvis] at h
    obtain ⟨out, hout, hf, rfl⟩ := bulkVisit_ok hi hvis
    exact ⟨_, hout, rfl, hf, h⟩

/-- A finished bulk load holds a normal form of every visited record and nothing else new. -/
theorem bulkLoop_ok {i : ℕ} {records : List DomainRecord} (hi : BulkInv spec s)
    (h : bulkLoop env i s records = .ok s') :
    BulkInv spec s' ∧
      (∀ key e, s'.batch.entry key = some e → s.batch.entry key = some e ∨
        ∃ rec ∈ records, ∃ now, 0 < now ∧ normalizeRecord now rec = .ok e.record) ∧
      (∀ key, s.batch.entry key ≠ none → s'.batch.entry key ≠ none) ∧
      ∀ rec ∈ records, s'.batch.entry (keyOf rec) ≠ none := by
  induction records generalizing s i with
  | nil =>
    cases h
    exact ⟨hi, fun _ _ he => .inl he, fun _ h => h, by simp⟩
  | cons rec rest ih =>
    obtain ⟨entry, hout, hv, hf, h⟩ := bulkLoop_cons_ok hi h
    have hid : keyOf rec = keyOf entry.record :=
      (keyOf_eq_iff _ _).mpr (normalizeRecord_ok hout).2.symm
    obtain ⟨hi', hfrom, hkeep, hall⟩ := ih (hi.visit hv hf) h
    refine ⟨hi', fun key e he => ?_, fun key hne => ?_, fun r hr => ?_⟩
    · rcases hfrom key e he with he | ⟨r, hr, now, hnow, hn⟩
      · rw [Batch.store_entry] at he
        split_ifs at he
        · cases he
          exact .inr ⟨rec, by simp, _, env.clock_pos i, hout⟩
        · exact .inl he
      · exact .inr ⟨r, by simp [hr], now, hnow, hn⟩
    · refine hkeep key ?_
      rw [Batch.store_entry]
      split_ifs
      · exact Option.some_ne_none _
      · exact hne
    · rcases List.mem_cons.mp hr with rfl | hr
      · refine hkeep _ ?_
        rw [Batch.store_entry, if_pos hid]
        exact Option.some_ne_none _
      · exact hall r hr

@[simp] theorem bulkSwap_entry (p : Partition) (s : BulkState) (key : String) :
    (p.bulkSwap s).idle.entry key = s.batch.entry key := by
  unfold bulkSwap publishBulk idle Batch.entry
  split_ifs <;> rfl

@[simp] theorem bulkSwap_spec (p : Partition) (s : BulkState) : (p.bulkSwap s).spec = p.spec := rfl

theorem bulkSwap_keyed {p : Partition} {s : BulkState} (hi : BulkInv p.spec s) :
    (p.bulkSwap s).idle.Keyed := by
  constructor <;> intro key e he <;> rw [bulkSwap_entry] at he
  · exact hi.keyed.key_eq key e he
  · exact hi.keyed.normal key e he
  · rw [idle, bulkSwap_spec, ← hi.spec_eq]; exact hi.keyed.domain_eq key e he
  · rw [idle, bulkSwap_spec, ← hi.spec_eq]; exact hi.keyed.collection_eq key e he
  · exact hi.keyed.bytes_eq key e he
  · rw [idle, bulkSwap_spec, ← hi.spec_eq]; exact hi.keyed.lasting key e he

end Partition

end Foundation.Hermes
