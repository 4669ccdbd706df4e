import Foundation.Sanity.Run

/-! The bookkeeping of tombstones, applied sources and watermark fences: forgetting only
removes, and a remembered version raises its fence to that version at most. -/

namespace Foundation.Hermes

open Go

namespace Partition

theorem evictTombstones_lookup {bound : ℤ} {order : List String}
    {tombs : GoMap String TombstoneEntry} {key : String} {tomb : TombstoneEntry}
    (h : (evictTombstones bound order tombs).2.lookup key = some tomb) :
    tombs.lookup key = some tomb := by
  induction order generalizing tombs with
  | nil => exact h
  | cons oldest rest ih =>
    unfold evictTombstones at h
    split_ifs at h
    · have hl := ih h
      rw [GoMap.lookup_erase_if] at hl
      split_ifs at hl
      exact hl
    · exact h

variable {p : Partition} {watermarks : GoMap String WatermarkFence} {fence : WatermarkFence}

theorem rememberTombstoneLocked_lookup {key source k : String} {version : ℕ} {tomb : TombstoneEntry}
    (h : (p.rememberTombstoneLocked key source version).tombstones.lookup k = some tomb) :
    (k = key ∧ tomb = ⟨version, source⟩) ∨ p.tombstones.lookup k = some tomb := by
  rw [rememberTombstoneLocked_eq] at h
  have hl := evictTombstones_lookup h
  rw [GoMap.lookup_insert_if] at hl
  split_ifs at hl with hk
  · exact .inl ⟨hk, (Option.some.inj hl).symm⟩
  · exact .inr hl

theorem releaseSource_lookup {source pre : String}
    (h : (releaseSource watermarks source).lookup pre = some fence) :
    ∃ old, watermarks.lookup pre = some old ∧ old.version = fence.version := by
  unfold releaseSource at h
  split at h
  · exact ⟨fence, h, rfl⟩
  · split at h
    · exact ⟨fence, h, rfl⟩
    · rename_i old hold
      split_ifs at h
      · rw [GoMap.lookup_erase_if] at h
        split_ifs at h
        exact ⟨fence, h, rfl⟩
      · rw [GoMap.lookup_insert_if] at h
        split_ifs at h with hp
        · cases h
          exact ⟨old, hp ▸ hold, rfl⟩
        · exact ⟨fence, h, rfl⟩

theorem evictApplied_applied (bound : ℤ) (order : List String) (applied : Finset String)
    (watermarks : GoMap String WatermarkFence) :
    (evictApplied bound order applied watermarks).2.1 ⊆ applied := by
  induction order generalizing applied watermarks with
  | nil => exact Finset.Subset.refl _
  | cons oldest rest ih =>
    unfold evictApplied
    split_ifs
    · exact (ih _ _).trans (Finset.erase_subset _ _)
    · exact Finset.Subset.refl _

theorem evictApplied_lookup {bound : ℤ} {order : List String} {applied : Finset String}
    {pre : String} (h : (evictApplied bound order applied watermarks).2.2.lookup pre = some fence) :
    ∃ old, watermarks.lookup pre = some old ∧ old.version = fence.version := by
  induction order generalizing applied watermarks with
  | nil => exact ⟨fence, h, rfl⟩
  | cons oldest rest ih =>
    unfold evictApplied at h
    split_ifs at h
    · obtain ⟨mid, hmid, hv⟩ := ih h
      obtain ⟨old, hold, hv'⟩ := releaseSource_lookup hmid
      exact ⟨old, hold, hv'.trans hv⟩
    · exact ⟨fence, h, rfl⟩

/-- No fence of the partition is above `bound`. -/
def FencedBelow (p : Partition) (bound : ℕ) : Prop :=
  ∀ pre fence, p.watermarks.lookup pre = some fence → fence.version ≤ bound

def BuriedBelow (p : Partition) (bound : ℕ) : Prop :=
  ∀ key tomb, p.tombstones.lookup key = some tomb → tomb.version ≤ bound

theorem countSource_le {source : String} {version bound : ℕ}
    (hw : ∀ pre fence, watermarks.lookup pre = some fence → fence.version ≤ bound)
    (hv : version ≤ bound) {pre : String}
    (h : (countSource watermarks source version).lookup pre = some fence) :
    fence.version ≤ bound := by
  unfold countSource at h
  split at h
  · exact hw pre fence h
  · rename_i q _
    dsimp only at h
    rw [GoMap.lookup_insert_if] at h
    split_ifs at h
    · cases h
      refine max_le ?_ hv
      cases hl : watermarks.lookup q with
      | none => exact Nat.zero_le _
      | some old => exact hw q old hl
    · exact hw pre fence h

theorem FencedBelow.remember {bound version : ℕ} (h : p.FencedBelow bound) (hv : version ≤ bound)
    (source : String) : (p.rememberAppliedLocked source version).FencedBelow bound := by
  intro pre fence hf
  unfold rememberAppliedLocked at hf
  split_ifs at hf
  · exact h pre fence hf
  · obtain ⟨old, hold, hov⟩ := evictApplied_lookup hf
    exact hov ▸ countSource_le h hv hold

theorem rememberAppliedLocked_applied (p : Partition) (source : String) (version : ℕ) :
    (p.rememberAppliedLocked source version).applied ⊆ insert source p.applied := by
  unfold rememberAppliedLocked
  split_ifs
  · exact Finset.subset_insert _ _
  · exact evictApplied_applied _ _ _ _

theorem not_alreadyApplied {source : String} {bound version : ℕ} (hs : source ∉ p.applied)
    (hf : p.FencedBelow bound) (hv : bound < version) :
    p.alreadyAppliedLocked source version = false := by
  unfold alreadyAppliedLocked fenced
  split_ifs
  · rfl
  · simp only [hs, decide_false, Bool.false_or]
    split
    · rfl
    · rename_i pre _
      cases hl : p.watermarks.lookup pre with
      | none => rfl
      | some fence =>
        have := hf pre fence hl
        simp only [Option.any_some, Bool.and_eq_false_iff, decide_eq_false_iff_not]
        omega

theorem not_blocked {bound version : ℕ} (h : p.BuriedBelow bound) (hv : bound ≤ version)
    (key : String) : p.blockedByNewerTombstoneLocked key version = false := by
  unfold blockedByNewerTombstoneLocked
  cases hl : p.tombstones.lookup key with
  | none => rfl
  | some tomb =>
    have := h key tomb hl
    simp only [Option.any_some, decide_eq_false_iff_not]
    omega

end Partition

end Foundation.Hermes
