import Foundation.Sanity.Sources

/-! Events that take effect. A batch is behind a version when none of its fences and
tombstones is above it; an event with a new source and a later version is then stored, or
its key buried, unless a limit rejects it. -/

namespace Foundation.Hermes

open Go

variable {b : Batch} {bound : ℕ} {rec : DomainRecord} {now : Time} {event : Event}

namespace Batch

structure Behind (b : Batch) (bound : ℕ) : Prop where
  keyed : b.Keyed
  fenced : b.part.FencedBelow bound
  buried : b.part.BuriedBelow bound

theorem Behind.mono {bound bound' : ℕ} (h : b.Behind bound) (hle : bound ≤ bound') :
    b.Behind bound' :=
  ⟨h.keyed, fun pre fence hf => (h.fenced pre fence hf).trans hle,
    fun key tomb ht => (h.buried key tomb ht).trans hle⟩

theorem Behind.store {entry : RecordEntry} (h : b.Behind bound) (hf : b.Fits entry) :
    (b.store entry).Behind bound := by
  refine ⟨h.keyed.store hf, ?_, ?_⟩
  · intro pre fence hl
    rw [store_watermarks] at hl
    exact h.fenced pre fence hl
  · intro key tomb hl
    rw [store_tombstones] at hl
    split_ifs at hl
    · rw [GoMap.lookup_erase_if] at hl
      split_ifs at hl
      exact h.buried key tomb hl
    · exact h.buried key tomb hl

theorem Behind.bury {bound version : ℕ} (h : b.Behind bound) (hv : version ≤ bound)
    (key source : String) : (b.bury key source version).Behind bound := by
  refine ⟨h.keyed.bury _ _ _, ?_, ?_⟩
  · intro pre fence hl
    rw [bury_watermarks] at hl
    exact h.fenced pre fence hl
  · intro k tomb hl
    rw [bury_tombstones] at hl
    rcases Partition.rememberTombstoneLocked_lookup hl with ⟨-, rfl⟩ | hl
    · exact hv
    · exact h.buried k tomb hl

theorem Behind.remember {bound version : ℕ} (h : b.Behind bound) (hv : version ≤ bound)
    (source : String) : (b.remember source version).Behind bound := by
  refine ⟨h.keyed.remember _ _, h.fenced.remember hv source, ?_⟩
  intro key tomb hl
  simp only [Batch.remember, Partition.rememberAppliedLocked_tombstones] at hl
  exact h.buried key tomb hl

/-- The limits leave room for the record. -/
def HasRoom (b : Batch) (rec : DomainRecord) : Prop :=
  (b.entry (keyOf rec) = none → b.part.records < b.part.spec.maxRecords) ∧
    b.nextBytes (b.entry (keyOf rec)) (estimateRecordBytes rec) ≤ b.part.spec.maxBytes

instance (b : Batch) (rec : DomainRecord) : Decidable (b.HasRoom rec) :=
  inferInstanceAs (Decidable (_ ∧ _))

theorem upsertLocked_newest {bound version : ℕ} (now : Time) (source : String) (h : b.Behind bound)
    (hv : bound ≤ version) (hnew : ∀ old, b.entry (keyOf rec) = some old → old.version ≤ version) :
    (¬ b.HasRoom rec ∧ b.upsertLocked now (keyOf rec) rec source version =
      .error .projectionLimit) ∨
      b.upsertLocked now (keyOf rec) rec source version =
        .ok (.applied, b.store ⟨rec, source, version, estimateRecordBytes rec,
          b.part.expiry now⟩) := by
  have hold : ¬ ((b.entry (keyOf rec)).any fun existing => version < existing.version) = true := by
    cases he : b.entry (keyOf rec) with
    | none => simp
    | some old => simpa using hnew old he
  unfold upsertLocked
  rw [if_neg (by rw [Partition.not_blocked h.buried hv]; simp), if_neg hold]
  split_ifs with hfull hbytes
  · exact .inl ⟨fun hroom => absurd (hroom.1 hfull.1) (not_lt.mpr hfull.2), rfl⟩
  · exact .inl ⟨fun hroom => absurd hroom.2 (not_le.mpr hbytes), rfl⟩
  · exact .inr rfl

end Batch

namespace Progress

theorem applyEventLocked_fresh (h : b.Behind bound) (hv : bound < event.version)
    (hsrc : trimSpace event.sourceID ∉ b.part.applied)
    (hrec : Batch.normalizeEventRecord now event = .ok rec) (hd : rec.domain = b.part.spec.domain)
    (hc : rec.collection = b.part.spec.collection) :
    b.applyEventLocked now event =
      (b.applyMutationLocked now (keyOf rec) rec event.operation (trimSpace event.sourceID)
        event.version).map
        fun r => (r.1, event.version, r.2.remember (trimSpace event.sourceID) event.version) := by
  have hver : b.part.effectiveVersion event.version = event.version := by
    rw [Partition.effectiveVersion, if_pos (by omega)]
  unfold Batch.applyEventLocked
  dsimp only
  rw [hver, if_neg (by rw [Partition.not_alreadyApplied hsrc h.fenced hv]; simp), hrec]
  have hscope : Batch.validateRecordScope b.part.spec.toProjectionSpec rec = .ok () := by
    rw [Batch.validateRecordScope, if_neg (by simp [hd, hc])]
  simp only [bind, Except.bind, hscope]
  cases b.applyMutationLocked now (keyOf rec) rec event.operation (trimSpace event.sourceID)
    event.version <;> rfl

theorem applyOne_upsert {w : Progress} (h : w.batch.Behind bound) (hop : event.operation = .upsert)
    (hv : bound < event.version) (hsrc : trimSpace event.sourceID ∉ w.batch.part.applied)
    (hrec : normalizeRecord now event.record = .ok rec) (hd : rec.domain = w.batch.part.spec.domain)
    (hc : rec.collection = w.batch.part.spec.collection)
    (hnew : ∀ old, w.batch.entry (keyOf rec) = some old → old.version ≤ event.version) :
    (¬ w.batch.HasRoom rec ∧ w.applyOne now event = w.reject .projectionLimit) ∨
      ∃ entry, entry.record = rec ∧ entry.version = event.version ∧ w.batch.Fits entry ∧
        w.applyOne now event = w.settle event .applied event.version
          ((w.batch.store entry).remember (trimSpace event.sourceID) event.version) := by
  have hnorm : Batch.normalizeEventRecord now event = .ok rec := by
    rw [Batch.normalizeEventRecord, if_neg (by simp [hop]), hrec]
  have hmut : w.batch.applyMutationLocked now (keyOf rec) rec event.operation
      (trimSpace event.sourceID)
      event.version = w.batch.upsertLocked now (keyOf rec) rec (trimSpace event.sourceID)
        event.version := by
    rw [hop]; rfl
  unfold applyOne
  rw [applyEventLocked_fresh h hv hsrc hnorm hd hc, hmut]
  rcases Batch.upsertLocked_newest now (trimSpace event.sourceID) h hv.le hnew with ⟨hroom, hu⟩ | hu
  · rw [hu]
    exact .inl ⟨hroom, rfl⟩
  · rcases Batch.upsertLocked_ok (normalizeEventRecord_ok hnorm).1 hd hc hu with ⟨hs,
      -⟩ | ⟨-, hf, -⟩
    · cases hs
    · rw [hu]
      exact .inr ⟨_, rfl, rfl, hf, rfl⟩

theorem applyOne_delete {w : Progress} (h : w.batch.Behind bound) (hop : event.operation = .delete)
    (hv : bound < event.version) (hsrc : trimSpace event.sourceID ∉ w.batch.part.applied)
    (hrec : normalizeRecord now event.record = .ok rec) (hd : rec.domain = w.batch.part.spec.domain)
    (hc : rec.collection = w.batch.part.spec.collection)
    (hnew : ∀ old, w.batch.entry (keyOf rec) = some old → old.version ≤ event.version) :
    w.applyOne now event = w.settle event .applied event.version
      ((w.batch.bury (keyOf rec) (trimSpace event.sourceID) event.version).remember
        (trimSpace event.sourceID) event.version) := by
  have hnorm : Batch.normalizeEventRecord now event = .ok rec := by
    rw [Batch.normalizeEventRecord, if_neg (by simp [hop]), hrec]
  have hdel : w.batch.deleteLocked (keyOf rec) (trimSpace event.sourceID) event.version =
      (.applied, w.batch.bury (keyOf rec) (trimSpace event.sourceID) event.version) := by
    unfold Batch.deleteLocked Batch.bury
    cases he : w.batch.entry (keyOf rec) with
    | none =>
      dsimp only
      rw [if_neg (by rw [Partition.not_blocked h.buried hv.le]; simp)]
    | some old =>
      dsimp only
      rw [if_neg (not_lt.mpr (hnew old he))]
  have hmut : w.batch.applyMutationLocked now (keyOf rec) rec event.operation
      (trimSpace event.sourceID)
      event.version =
        .ok (w.batch.deleteLocked (keyOf rec) (trimSpace event.sourceID) event.version) := by
    rw [hop]; rfl
  unfold applyOne
  rw [applyEventLocked_fresh h hv hsrc hnorm hd hc, hmut, hdel]
  rfl

end Progress

end Foundation.Hermes
