import Mathlib.Algebra.Order.BigOperators.Group.List
import Mathlib.Algebra.Order.Group.Nat
import Mathlib.Tactic.Ring

/-! The largest-remainder method: an amount is split by ratios, each party gets the quotient, and
the units left over are fewer than the parties with a remainder. -/

namespace Foundation.LargestRemainder

def quotients (amount total : ℕ) (ratios : List ℕ) : List ℕ :=
  ratios.map fun r => amount * r / total

def leftover (amount : ℕ) (ratios : List ℕ) : ℕ := amount - (quotients amount ratios.sum ratios).sum

theorem sum_quotients_remainders (amount total : ℕ) (ratios : List ℕ) :
    total * (quotients amount total ratios).sum + (ratios.map fun r => amount * r % total).sum =
      amount * ratios.sum := by
  induction ratios with
  | nil => rfl
  | cons r ratios ih =>
    have hr := Nat.div_add_mod (amount * r) total
    simp only [quotients, List.map_cons, List.sum_cons] at ih ⊢
    calc total * (amount * r / total + (ratios.map fun r => amount * r / total).sum) +
          (amount * r % total + (ratios.map fun r => amount * r % total).sum)
        = (total * (amount * r / total) + amount * r % total) +
          (total * (ratios.map fun r => amount * r / total).sum +
            (ratios.map fun r => amount * r % total).sum) := by ring
      _ = amount * (r + ratios.sum) := by rw [hr, ih]; ring

variable (amount : ℕ) {ratios : List ℕ}

theorem sum_quotients_le (h : 0 < ratios.sum) :
    (quotients amount ratios.sum ratios).sum ≤ amount := by
  have hsum := sum_quotients_remainders amount ratios.sum ratios
  refine Nat.le_of_mul_le_mul_left ?_ h
  rw [Nat.mul_comm ratios.sum amount]
  omega

/-- Each remainder is below the total, and those that are zero add nothing. -/
theorem sum_remainders_le (total : ℕ) (htotal : 0 < total) (l : List ℕ) :
    (l.map fun r => amount * r % total).sum ≤ total * l.countP fun r => 0 < amount * r % total := by
  induction l with
  | nil => exact Nat.zero_le _
  | cons r l ih =>
    have hlt := Nat.mod_lt (amount * r) htotal
    rw [List.map_cons, List.sum_cons, List.countP_cons, Nat.mul_add]
    by_cases hr : 0 < amount * r % total
    · rw [if_pos (decide_eq_true hr)]
      omega
    · rw [if_neg (by rw [decide_eq_true_eq]; exact hr)]
      omega

theorem leftover_le_countP (h : 0 < ratios.sum) :
    leftover amount ratios ≤ ratios.countP fun r => 0 < amount * r % ratios.sum := by
  have hsum := sum_quotients_remainders amount ratios.sum ratios
  have hrem := sum_remainders_le amount ratios.sum h ratios
  refine Nat.le_of_mul_le_mul_left (le_trans (le_of_eq ?_) hrem) h
  rw [leftover, Nat.mul_sub, Nat.mul_comm ratios.sum amount]
  omega

/-- An amount as large as the total leaves a unit with some party at once. -/
theorem leftover_lt (h : 0 < ratios.sum) (hle : ratios.sum ≤ amount) :
    leftover amount ratios < amount := by
  obtain ⟨r, hr, hpos⟩ : ∃ r ∈ ratios, 0 < r := by
    by_contra hno
    push Not at hno
    exact absurd (List.sum_eq_zero fun r hr => Nat.le_zero.mp (hno r hr)) h.ne'
  have hq : 1 ≤ amount * r / ratios.sum :=
    (Nat.one_le_div_iff h).mpr (hle.trans (Nat.le_mul_of_pos_right amount hpos))
  have hone : 1 ≤ (quotients amount ratios.sum ratios).sum :=
    hq.trans (List.le_sum_of_mem (List.mem_map_of_mem hr))
  rw [leftover]
  omega

end Foundation.LargestRemainder
