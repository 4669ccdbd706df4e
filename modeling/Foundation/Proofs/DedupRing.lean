import Foundation.Spec.DedupRing

/-! First sightings. While nothing is evicted a slot that is taken stays taken, so a call that has
passed a slot has passed another key's for good, and two calls of one fingerprint cannot both claim.
-/

namespace Foundation.DedupRing

theorem fingerprint_ne_empty (key : List UInt8) : fingerprint key ≠ emptySlot := by
  unfold fingerprint
  extract_lets hash
  split_ifs with h
  · decide
  · exact h

variable {ι : Type} {capacity : ℕ} {keys : ι → List UInt8} {r r' : Ring ι}

@[simp] theorem write_slots_self (index : ℕ) (fp : UInt64) : (r.write index fp).slots index = fp :=
  Function.update_self _ _ _

theorem write_slots_of_ne {index k : ℕ} (h : k ≠ index) (fp : UInt64) :
    (r.write index fp).slots k = r.slots k :=
  Function.update_of_ne h _ _

/-! ### What a probe finds -/

/-- A probe that leaves the slots alone: it found its own fingerprint, another one, or nothing. -/
inductive Probed (r : Ring ι) (i : ι) (index : ℕ) (fp : UInt64) (step : ℕ) : Phase → Prop
  | duplicate : r.slots index = fp → Probed r i index fp step (.returned .duplicate)
  | pass : r.slots index ≠ fp → r.slots index ≠ emptySlot →
    Probed r i index fp step (nextProbe step)
  | free : Probed r i index fp step (.claiming step)

/-- A call of the fingerprint has claimed a slot. -/
def Claimed (keys : ι → List UInt8) (r : Ring ι) (fp : UInt64) : Prop :=
  ∃ j, fingerprint (keys j) = fp ∧ r.phase j = .returned .firstSeen

/-- Whatever is in a slot was put there by a call, and so was what a duplicate has seen. -/
structure Sourced (keys : ι → List UInt8) (r : Ring ι) : Prop where
  slots : ∀ index, r.slots index ≠ emptySlot → Claimed keys r (r.slots index)
  duplicates : ∀ i, r.phase i = .returned .duplicate → Claimed keys r (fingerprint (keys i))

variable {i : ι} {step : ℕ} {phase : Phase} {fp : UInt64} {a : Access ι}

theorem phase_ne (h : r.phase i = .loading step ∨ r.phase i = .claiming step) :
    r.phase i ≠ .returned .firstSeen := by
  rcases h with h | h <;> rw [h] <;> simp

theorem Probed.claimed {index step : ℕ} (h : Probed r i index (fingerprint (keys i)) step phase)
    (hs : Sourced keys r) (hphase : phase = .returned .duplicate) :
    Claimed keys r (fingerprint (keys i)) := by
  cases h with
  | duplicate hsame =>
    have hclaimed := hs.slots index (by rw [hsame]; exact fingerprint_ne_empty _)
    rwa [hsame] at hclaimed
  | pass =>
    unfold nextProbe at hphase
    split_ifs at hphase
  | free => cases hphase

/-- The slots before a probe of a call belong to other keys. -/
def Passed (capacity : ℕ) (keys : ι → List UInt8) (r : Ring ι) (i : ι) (step : ℕ) : Prop :=
  ∀ s < step, r.slots (slotIndex capacity (fingerprint (keys i)) s) ≠ emptySlot ∧
    r.slots (slotIndex capacity (fingerprint (keys i)) s) ≠ fingerprint (keys i)

theorem Probed.ne_firstSeen {index step : ℕ} (h : Probed r i index fp step phase) :
    phase ≠ .returned .firstSeen := by
  cases h with
  | duplicate | free => simp
  | pass =>
    unfold nextProbe
    split_ifs <;> simp

/-- A call that goes on has passed one slot more, or is at the same one. -/
theorem Probed.passed {step s : ℕ}
    (h : Probed r i (slotIndex capacity (fingerprint (keys i)) step)
      (fingerprint (keys i)) step phase) (hpassed : Passed capacity keys r i step)
    (hphase : phase = .loading s ∨ phase = .claiming s) :
    Passed capacity keys r i s := by
  cases h with
  | duplicate => simp at hphase
  | pass hother hfull =>
    have hs : s = step + 1 := by
      unfold nextProbe at hphase
      split_ifs at hphase <;> simp_all
    intro k hk
    rcases Nat.lt_succ_iff_lt_or_eq.mp (hs ▸ hk) with hlt | rfl
    · exact hpassed k hlt
    · exact ⟨hfull, hother⟩
  | free =>
    obtain rfl : step = s := by simpa using hphase
    exact hpassed

theorem Passed.write {step index : ℕ} (h : Passed capacity keys r i step)
    (hempty : r.slots index = emptySlot) : Passed capacity keys (r.write index fp) i step := by
  intro s hs
  have hne : slotIndex capacity (fingerprint (keys i)) s ≠ index :=
    fun heq => (h s hs).1 (heq ▸ hempty)
  rw [write_slots_of_ne hne]
  exact h s hs

/-! ### What an access does -/

variable [DecidableEq ι]

@[simp] theorem goto_phase_self (i : ι) (phase : Phase) : (r.goto i phase).phase i = phase :=
  Function.update_self _ _ _

theorem goto_phase_of_ne {i j : ι} (h : j ≠ i) (phase : Phase) :
    (r.goto i phase).phase j = r.phase j :=
  Function.update_of_ne h _ _

theorem exec_cases (h : exec capacity keys r a = some r') :
    (∃ i step phase, (r.phase i = .loading step ∨ r.phase i = .claiming step) ∧
      Probed r i (slotIndex capacity (fingerprint (keys i)) step)
        (fingerprint (keys i)) step phase ∧
        r' = r.goto i phase) ∨
    (∃ i step, r.phase i = .claiming step ∧
      r.slots (slotIndex capacity (fingerprint (keys i)) step) = emptySlot ∧
      r' = (r.write (slotIndex capacity (fingerprint (keys i)) step) (fingerprint (keys i))).goto i
        (.returned .firstSeen)) ∨
    (∃ i, a = .store i ∧ r.phase i = .evicting ∧
      r' = (r.write (slotIndex capacity (fingerprint (keys i)) 0) (fingerprint (keys i))).goto i
        (.returned .firstSeen)) := by
  cases a with
  | load i =>
    rw [exec] at h
    cases hi : r.phase i with
    | loading step =>
      simp only [hi] at h
      refine .inl ⟨i, step, ?_⟩
      split_ifs at h with hsame hfull
      · exact ⟨_, .inl hi, .duplicate hsame, (Option.some.inj h).symm⟩
      · exact ⟨_, .inl hi, .pass hsame hfull, (Option.some.inj h).symm⟩
      · exact ⟨_, .inl hi, .free, (Option.some.inj h).symm⟩
    | claiming | evicting | returned =>
      rw [hi] at h
      cases h
  | compareExchange i =>
    rw [exec] at h
    cases hi : r.phase i with
    | claiming step =>
      simp only [hi] at h
      split_ifs at h with hempty hsame
      · exact .inr (.inl ⟨i, step, hi, hempty, (Option.some.inj h).symm⟩)
      · exact .inl ⟨i, step, _, .inr hi, .duplicate hsame, (Option.some.inj h).symm⟩
      · exact .inl ⟨i, step, _, .inr hi, .pass hsame hempty, (Option.some.inj h).symm⟩
    | loading | evicting | returned =>
      rw [hi] at h
      cases h
  | store i =>
    rw [exec] at h
    cases hi : r.phase i with
    | evicting =>
      rw [hi] at h
      exact .inr (.inr ⟨i, rfl, hi, (Option.some.inj h).symm⟩)
    | loading | claiming | returned =>
      rw [hi] at h
      cases h

/-! ### With evictions -/

theorem Claimed.goto (h : Claimed keys r fp) (hi : r.phase i ≠ .returned .firstSeen) :
    Claimed keys (r.goto i phase) fp := by
  obtain ⟨j, hj, hphase⟩ := h
  have hne : j ≠ i := by
    rintro rfl
    exact hi hphase
  exact ⟨j, hj, (goto_phase_of_ne hne phase).trans hphase⟩

theorem Sourced.goto (h : Sourced keys r) (hi : r.phase i ≠ .returned .firstSeen)
    (hphase : phase = .returned .duplicate → Claimed keys r (fingerprint (keys i))) :
    Sourced keys (r.goto i phase) := by
  refine ⟨fun index hindex => (h.slots index hindex).goto hi, fun j hj => ?_⟩
  rcases eq_or_ne j i with rfl | hne
  · rw [goto_phase_self] at hj
    exact (hphase hj).goto hi
  · rw [goto_phase_of_ne hne] at hj
    exact (h.duplicates j hj).goto hi

theorem Sourced.claim (h : Sourced keys r) (index : ℕ) (hi : r.phase i ≠ .returned .firstSeen) :
    Sourced keys ((r.write index (fingerprint (keys i))).goto i (.returned .firstSeen)) := by
  refine ⟨fun k hk => ?_, fun j hj => ?_⟩
  · rcases eq_or_ne k index with rfl | hne
    · exact ⟨i, (write_slots_self k _).symm, goto_phase_self i _⟩
    · change Claimed keys _ ((r.write index (fingerprint (keys i))).slots k)
      have hk' : r.slots k ≠ emptySlot := by rwa [← write_slots_of_ne hne (fingerprint (keys i))]
      rw [write_slots_of_ne hne]
      exact Claimed.goto (r := r.write index _) (h.slots k hk') hi
  · have hne : j ≠ i := by
      rintro rfl
      rw [goto_phase_self] at hj
      cases hj
    rw [goto_phase_of_ne hne] at hj
    exact Claimed.goto (r := r.write index _) (h.duplicates j hj) hi

theorem Sourced.exec (h : Sourced keys r) (hs : exec capacity keys r a = some r') :
    Sourced keys r' := by
  obtain ⟨i, step, phase, hi, hprobed, rfl⟩ | ⟨i, step, hi, -, rfl⟩ | ⟨i, -, hi, rfl⟩ :=
    exec_cases hs
  · exact h.goto (phase_ne hi) (hprobed.claimed h)
  · exact h.claim _ (phase_ne (.inr hi))
  · exact h.claim _ (by simp [hi])

/-! ### Without evictions -/

def NoEviction (_ : Ring ι) (a : Access ι) : Prop := ∀ i, a ≠ .store i

structure Settled (capacity : ℕ) (keys : ι → List UInt8) (r : Ring ι) : Prop where
  passed : ∀ i step, r.phase i = .loading step ∨ r.phase i = .claiming step →
    Passed capacity keys r i step
  first : ∀ i, r.phase i = .returned .firstSeen → ∃ step,
    r.slots (slotIndex capacity (fingerprint (keys i)) step) = fingerprint (keys i) ∧
      Passed capacity keys r i step
  unique : ∀ i j, r.phase i = .returned .firstSeen → r.phase j = .returned .firstSeen →
    fingerprint (keys i) = fingerprint (keys j) → i = j

theorem Settled.goto (h : Settled capacity keys r)
    (hi : r.phase i = .loading step ∨ r.phase i = .claiming step)
    (hprobed : Probed r i (slotIndex capacity (fingerprint (keys i)) step)
      (fingerprint (keys i)) step phase) :
    Settled capacity keys (r.goto i phase) := by
  have hreturned : ∀ j, (r.goto i phase).phase j = .returned .firstSeen →
      r.phase j = .returned .firstSeen := by
    intro j hj
    rcases eq_or_ne j i with rfl | hne
    · rw [goto_phase_self] at hj
      exact absurd hj hprobed.ne_firstSeen
    · rwa [goto_phase_of_ne hne] at hj
  refine ⟨fun j s hj => ?_, fun j hj => h.first j (hreturned j hj), fun j k hj hk =>
    h.unique j k (hreturned j hj) (hreturned k hk)⟩
  rcases eq_or_ne j i with rfl | hne
  · rw [goto_phase_self] at hj
    exact hprobed.passed (h.passed j step hi) hj
  · rw [goto_phase_of_ne hne] at hj
    exact h.passed j s hj

theorem Settled.claim (h : Settled capacity keys r) (hi : r.phase i = .claiming step)
    (hempty : r.slots (slotIndex capacity (fingerprint (keys i)) step) = emptySlot) :
    Settled capacity keys
      ((r.write (slotIndex capacity (fingerprint (keys i)) step) (fingerprint (keys i))).goto i
      (.returned .firstSeen)) := by
  have hpassed := h.passed i step (.inr hi)
  -- another call of the fingerprint would have its slot before this one, at it or after it
  have hnone : ∀ j, r.phase j = .returned .firstSeen →
      fingerprint (keys j) ≠ fingerprint (keys i) := by
    intro j hj heq
    obtain ⟨k, hk, hbefore⟩ := h.first j hj
    rw [heq] at hk
    rcases lt_trichotomy k step with hlt | rfl | hlt
    · exact (hpassed k hlt).2 hk
    · exact fingerprint_ne_empty _ (hk.symm.trans hempty)
    · have hfull := (hbefore step hlt).1
      rw [heq] at hfull
      exact hfull hempty
  refine ⟨fun j s hj => ?_, fun j hj => ?_, fun j k hj hk heq => ?_⟩
  · have hne : j ≠ i := by
      rintro rfl
      simp at hj
    rw [goto_phase_of_ne hne] at hj
    exact (h.passed j s hj).write hempty
  · rcases eq_or_ne j i with rfl | hne
    · exact ⟨step, write_slots_self _ _, hpassed.write hempty⟩
    · rw [goto_phase_of_ne hne] at hj
      obtain ⟨k, hk, hbefore⟩ := h.first j hj
      refine ⟨k, ?_, hbefore.write hempty⟩
      have hother : slotIndex capacity (fingerprint (keys j)) k ≠
          slotIndex capacity (fingerprint (keys i)) step := by
        intro hsame
        rw [hsame, hempty] at hk
        exact fingerprint_ne_empty _ hk.symm
      exact (write_slots_of_ne hother _).trans hk
  · rcases eq_or_ne j i with rfl | hj'
    · rcases eq_or_ne k j with rfl | hk'
      · rfl
      · rw [goto_phase_of_ne hk'] at hk
        exact absurd heq.symm (hnone k hk)
    · rw [goto_phase_of_ne hj'] at hj
      rcases eq_or_ne k i with rfl | hk'
      · exact absurd heq (hnone j hj)
      · rw [goto_phase_of_ne hk'] at hk
        exact h.unique j k hj hk heq

theorem Settled.exec (h : Settled capacity keys r) (ha : NoEviction r a)
    (hs : exec capacity keys r a = some r') : Settled capacity keys r' := by
  obtain ⟨i, step, phase, hi, hprobed, rfl⟩ | ⟨i, step, hi, hempty, rfl⟩ | ⟨i, ha', -⟩ :=
    exec_cases hs
  · exact h.goto hi hprobed
  · exact h.claim hi hempty
  · exact absurd ha' (ha i)

/-- Without evictions exactly one of the calls that return for a fingerprint is the first; with them
a call that returns a duplicate is preceded by another that claimed a slot. -/
theorem one_first_sighting (capacity : ℕ) (keys : ι → List UInt8) :
    (∀ r, Reached (exec capacity keys) NoEviction {} r → ∀ fp,
      (∃ i o, fingerprint (keys i) = fp ∧ r.phase i = .returned o) →
        ∃! i, fingerprint (keys i) = fp ∧ r.phase i = .returned .firstSeen) ∧
    (∀ r a r' i, Reached (exec capacity keys) (fun _ _ => True) {} r →
      exec capacity keys r a = some r' →
      r.phase i ≠ .returned .duplicate → r'.phase i = .returned .duplicate →
        ∃ j, j ≠ i ∧ fingerprint (keys j) = fingerprint (keys i) ∧
          r.phase j = .returned .firstSeen) := by
  have hstart : Sourced keys ({} : Ring ι) := ⟨fun _ h => absurd rfl h, fun _ h => by cases h⟩
  constructor
  · rintro r hr fp ⟨i, o, rfl, hi⟩
    have hsourced : Sourced keys r := hr.invariant hstart fun _ _ _ _ hs h => h.exec hs
    have hsettled : Settled capacity keys r := by
      refine hr.invariant ⟨fun i step h => ?_, fun _ h => ?_, fun _ _ h => ?_⟩ fun _ _ _ ha hs
        h => h.exec ha hs
      · obtain rfl : 0 = step := by simpa using h
        exact fun s hs => absurd hs (Nat.not_lt_zero s)
      · cases h
      · cases h
    obtain ⟨j, hj, hfirst⟩ : Claimed keys r (fingerprint (keys i)) := by
      cases o with
      | firstSeen => exact ⟨i, rfl, hi⟩
      | duplicate => exact hsourced.duplicates i hi
    exact ⟨j, ⟨hj, hfirst⟩, fun k hk => hsettled.unique k j hk.2 hfirst (hk.1.trans hj.symm)⟩
  · intro r a r' i hr hs hbefore hafter
    have hsourced : Sourced keys r := hr.invariant hstart fun _ _ _ _ hs h => h.exec hs
    have hclaimed : r.phase i ≠ .returned .firstSeen ∧ Claimed keys r (fingerprint (keys i)) := by
      obtain ⟨k, step, phase, hk, hprobed, rfl⟩ | ⟨k, step, -, -, rfl⟩ | ⟨k, -, -, rfl⟩ :=
        exec_cases hs
      · rcases eq_or_ne i k with rfl | hne
        · rw [goto_phase_self] at hafter
          exact ⟨phase_ne hk, hprobed.claimed hsourced hafter⟩
        · rw [goto_phase_of_ne hne] at hafter
          exact absurd hafter hbefore
      all_goals
        rcases eq_or_ne i k with rfl | hne
        · simp at hafter
        · rw [goto_phase_of_ne hne] at hafter
          exact absurd hafter hbefore
    obtain ⟨hi, j, hj, hfirst⟩ := hclaimed
    exact ⟨j, fun heq => hi (heq ▸ hfirst), hj, hfirst⟩

def noStore (_ : Ring Bool) : Access Bool → Bool
  | .store _ => false
  | _ => true

/-- Two copies of one frame that both find the slot empty. -/
theorem racing_copies_one_first :
    ∃ r : Ring Bool, Reached (exec 64 fun _ => [0x61]) NoEviction {} r ∧
      r.phase true = .returned .duplicate ∧
      ∃! i, r.phase i = .returned .firstSeen := by
  obtain ⟨r, hr, hp⟩ := Reached.exists_of_run (exec 64 fun _ : Bool => [0x61]) (C := NoEviction)
    noStore (fun r => decide (r.phase true = .returned .duplicate)) {}
    [.load false, .load true, .compareExchange false, .compareExchange true]
    (fun _ a ha i heq => by subst heq; cases ha) (by decide +kernel) (by decide +kernel)
  have hdup := of_decide_eq_true hp
  have hone := (one_first_sighting 64 fun _ => [0x61]).1 r hr _ ⟨true, _, rfl, hdup⟩
  exact ⟨r, hr, hdup, by simpa using hone⟩

end Foundation.DedupRing
