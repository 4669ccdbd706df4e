import Foundation.Lib.GoMap

/-! Reference counts in a map: a value is held while its count is positive. Adding stops at
a bound on the number of distinct values, removing a last reference removes the value. -/

namespace Foundation.Tally

variable {K : Type} [DecidableEq K]

def count (m : GoMap K ℤ) (v : K) : ℤ := (m.lookup v).getD 0

def add (bound : ℤ) (m : GoMap K ℤ) (v : K) : GoMap K ℤ :=
  if (m.keys.card : ℤ) < bound ∨ 0 < count m v then m.insert v (count m v + 1) else m

def remove (m : GoMap K ℤ) (v : K) : GoMap K ℤ :=
  if count m v ≤ 1 then m.erase v else m.insert v (count m v - 1)

def addAll (bound : ℤ) (m : GoMap K ℤ) (vs : List K) : GoMap K ℤ := vs.foldl (add bound) m

def removeAll (m : GoMap K ℤ) (vs : List K) : GoMap K ℤ := vs.foldl remove m

def Positive (m : GoMap K ℤ) : Prop := ∀ v n, m.lookup v = some n → 0 < n

theorem positive_empty : Positive (∅ : GoMap K ℤ) := fun v n h => by simp at h

theorem count_empty (v : K) : count (∅ : GoMap K ℤ) v = 0 := by simp [count]

variable {m : GoMap K ℤ} {bound : ℤ} {w : K}

theorem Positive.mem_keys (h : Positive m) (v : K) : v ∈ m.keys ↔ 0 < count m v := by
  rw [GoMap.mem_keys_iff, count]
  constructor
  · rintro ⟨n, hn⟩
    rw [hn]
    exact h v n hn
  · intro hpos
    cases hl : m.lookup v with
    | none => rw [hl] at hpos; exact absurd hpos (lt_irrefl _)
    | some n => exact ⟨n, rfl⟩

theorem Positive.count_nonneg (h : Positive m) (v : K) : 0 ≤ count m v := by
  unfold count
  cases hl : m.lookup v with
  | none => exact le_rfl
  | some n => exact (h v n hl).le

theorem add_spec (h : Positive m) {v : K} (hroom : ((insert v m.keys).card : ℤ) ≤ bound) :
    Positive (add bound m v) ∧ (add bound m v).keys = insert v m.keys ∧
      ∀ w, count (add bound m v) w = count m w + if w = v then 1 else 0 := by
  have hcond : (m.keys.card : ℤ) < bound ∨ 0 < count m v := by
    by_cases hv : v ∈ m.keys
    · exact Or.inr ((h.mem_keys v).mp hv)
    · rw [Finset.card_insert_of_notMem hv] at hroom
      exact Or.inl (by push_cast at hroom; omega)
  rw [add, if_pos hcond]
  refine ⟨fun w n hw => ?_, GoMap.keys_insert m v _, fun w => ?_⟩
  · rw [GoMap.lookup_insert_if] at hw
    split_ifs at hw with hwv
    · have := h.count_nonneg v
      have := Option.some_inj.mp hw
      omega
    · exact h w n hw
  · unfold count
    rw [GoMap.lookup_insert_if]
    split_ifs with hwv
    · rw [hwv]
      rfl
    · exact (add_zero _).symm

/-- Within the bound, adding values adds their multiplicities. -/
theorem addAll_spec (h : Positive m) {vs : List K}
    (hroom : ((m.keys ∪ vs.toFinset).card : ℤ) ≤ bound) :
    Positive (addAll bound m vs) ∧ ∀ w, count (addAll bound m vs) w = count m w +
      (vs.count w : ℤ) := by
  induction vs generalizing m with
  | nil => exact ⟨h, fun w => by simp [addAll]⟩
  | cons v rest ih =>
    have hsub : insert v m.keys ⊆ m.keys ∪ (v :: rest).toFinset := by
      intro x hx
      rcases Finset.mem_insert.mp hx with rfl | hx
      · exact Finset.mem_union_right _ (by simp)
      · exact Finset.mem_union_left _ hx
    obtain ⟨hpos, hkeys, hcount⟩ := add_spec h (v := v)
      (le_trans (by exact_mod_cast Finset.card_le_card hsub) hroom)
    have hunion : (add bound m v).keys ∪ rest.toFinset = m.keys ∪ (v :: rest).toFinset := by
      rw [hkeys]
      ext x
      simp only [Finset.mem_union, Finset.mem_insert, List.mem_toFinset, List.mem_cons]
      tauto
    obtain ⟨hpos', hcount'⟩ := ih hpos (by rw [hunion]; exact hroom)
    refine ⟨hpos', fun w => ?_⟩
    have hstep : addAll bound m (v :: rest) = addAll bound (add bound m v) rest := rfl
    rw [hstep, hcount', hcount, List.count_cons]
    by_cases hw : w = v
    · subst hw
      simp
      omega
    · have : (v == w) = false := beq_eq_false_iff_ne.mpr (Ne.symm hw)
      simp [hw, this]

theorem remove_count (h : Positive m) (v : K) :
    Positive (remove m v) ∧ ∀ w, count (remove m v) w = max 0 (count m w - if w = v then
      1 else 0) := by
  have hnonneg := h.count_nonneg v
  unfold remove
  split_ifs with hle
  · refine ⟨fun w n hw => ?_, fun w => ?_⟩
    · rw [GoMap.lookup_erase_if] at hw
      split_ifs at hw
      exact h w n hw
    · by_cases hw : w = v
      · rw [if_pos hw, hw, max_eq_left (by omega), count, GoMap.lookup_erase_if, if_pos rfl]
        rfl
      · rw [if_neg hw, sub_zero, max_eq_right (h.count_nonneg w), count,
          GoMap.lookup_erase_if, if_neg hw]
        rfl
  · refine ⟨fun w n hw => ?_, fun w => ?_⟩
    · rw [GoMap.lookup_insert_if] at hw
      split_ifs at hw with hwv
      · have := Option.some_inj.mp hw
        omega
      · exact h w n hw
    · by_cases hw : w = v
      · rw [if_pos hw, hw, max_eq_right (by omega), count, GoMap.lookup_insert_if, if_pos rfl]
        rfl
      · rw [if_neg hw, sub_zero, max_eq_right (h.count_nonneg w), count,
          GoMap.lookup_insert_if, if_neg hw]
        rfl

theorem removeAll_count (h : Positive m) (vs : List K) :
    Positive (removeAll m vs) ∧
      ∀ w, count (removeAll m vs) w = max 0 (count m w - (vs.count w : ℤ)) := by
  induction vs generalizing m with
  | nil => exact ⟨h, fun w => by simpa [removeAll] using h.count_nonneg w⟩
  | cons v rest ih =>
    obtain ⟨hpos, hcount⟩ := remove_count h v
    obtain ⟨hpos', hcount'⟩ := ih hpos
    refine ⟨hpos', fun w => ?_⟩
    have hstep : removeAll m (v :: rest) = removeAll (remove m v) rest := rfl
    rw [hstep, hcount', hcount]
    by_cases hw : w = v
    · rw [if_pos hw, hw, List.count_cons_self]
      push_cast
      omega
    · rw [if_neg hw, List.count_cons_of_ne (Ne.symm hw)]
      have hnonneg := h.count_nonneg w
      omega

/-! ### At the bound -/

theorem add_count (h : Positive m) (bound : ℤ) (v : K) :
    Positive (add bound m v) ∧ m.keys ⊆ (add bound m v).keys ∧
      ∀ w, count (add bound m v) w = count m w ∨ w = v ∧
        count (add bound m v) w = count m w + 1 := by
  unfold add
  split_ifs with hcond
  · refine ⟨fun w n hw => ?_, ?_, fun w => ?_⟩
    · rw [GoMap.lookup_insert_if] at hw
      split_ifs at hw with hwv
      · have := h.count_nonneg v
        have := Option.some_inj.mp hw
        omega
      · exact h w n hw
    · rw [GoMap.keys_insert]
      exact Finset.subset_insert _ _
    · unfold count
      rw [GoMap.lookup_insert_if]
      split_ifs with hwv
      · exact .inr ⟨hwv, by rw [hwv]; rfl⟩
      · exact .inl rfl
  · exact ⟨h, Finset.Subset.refl _, fun w => .inl rfl⟩

/-- A value that is held is counted whatever the bound. -/
theorem addAll_held (h : Positive m) (bound : ℤ) (vs : List K) (hw : 0 < count m w) :
    count (addAll bound m vs) w = count m w + (vs.count w : ℤ) := by
  induction vs generalizing m with
  | nil => simp [addAll]
  | cons v rest ih =>
    obtain ⟨hpos, -, hcount⟩ := add_count h bound v
    have hstep : addAll bound m (v :: rest) = addAll bound (add bound m v) rest := rfl
    by_cases hwv : v = w
    · have hadd : count (add bound m v) w = count m w + 1 := by
        rw [add, if_pos (.inr (hwv ▸ hw)), count, GoMap.lookup_insert_if, if_pos hwv.symm, hwv]
        rfl
      rw [hstep, ih hpos (by omega), hadd, hwv, List.count_cons_self]
      push_cast
      omega
    · have hadd : count (add bound m v) w = count m w :=
        (hcount w).resolve_right fun hboth => hwv hboth.1.symm
      rw [hstep, ih hpos (by omega), hadd, List.count_cons_of_ne hwv]

/-- A value that is not held is skipped at the bound. -/
theorem addAll_full (h : Positive m) (hfull : bound ≤ m.keys.card) (vs : List K)
    (hw : count m w = 0) : count (addAll bound m vs) w = 0 := by
  induction vs generalizing m with
  | nil => exact hw
  | cons v rest ih =>
    obtain ⟨hpos, hkeys, hcount⟩ := add_count h bound v
    have hcard := Finset.card_le_card hkeys
    refine ih hpos (by omega) ?_
    by_cases hwv : v = w
    · rw [add, if_neg (by rw [hwv]; omega)]
      exact hw
    · rw [(hcount w).resolve_right fun hboth => hwv hboth.1.symm, hw]

/-- A value that is not held is counted in full or skipped in full. -/
theorem addAll_new (h : Positive m) (bound : ℤ) (vs : List K) (hw : count m w = 0) :
    count (addAll bound m vs) w = 0 ∨ count (addAll bound m vs) w = (vs.count w : ℤ) := by
  induction vs generalizing m with
  | nil => exact .inl hw
  | cons v rest ih =>
    obtain ⟨hpos, -, hcount⟩ := add_count h bound v
    have hstep : addAll bound m (v :: rest) = addAll bound (add bound m v) rest := rfl
    rw [hstep]
    by_cases hwv : v = w
    · by_cases hroom : (m.keys.card : ℤ) < bound
      · have hadd : count (add bound m v) w = 1 := by
          rw [add, if_pos (.inl hroom), count, GoMap.lookup_insert_if, if_pos hwv.symm, hwv, hw]
          rfl
        rw [addAll_held hpos bound rest (by omega), hadd, hwv, List.count_cons_self]
        push_cast
        omega
      · have hadd : add bound m v = m := if_neg (by rw [hwv]; omega)
        rw [hadd]
        exact .inl (addAll_full h (not_lt.mp hroom) rest hw)
    · rw [List.count_cons_of_ne hwv]
      exact ih hpos (by rw [(hcount w).resolve_right fun hboth => hwv hboth.1.symm, hw])

theorem addAll_positive (h : Positive m) (bound : ℤ) (vs : List K) :
    Positive (addAll bound m vs) := by
  induction vs generalizing m with
  | nil => exact h
  | cons v rest ih => exact ih (add_count h bound v).1

end Foundation.Tally
