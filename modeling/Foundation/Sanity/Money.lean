import Foundation.Spec.Money
import Foundation.Lib.LargestRemainder
import Mathlib.Tactic.Linarith

/-! The machine arithmetic of an allocation computes what the integers say: neither the 128-bit
product nor the leftover ever overflows, and a 64-bit product that divides back is exact. -/

namespace Foundation.MoneyAllocation

/-! ### Words -/

theorem toNat_toUInt64 (x : Int64) : (x.toUInt64.toNat : ℤ) = x.toInt % 2 ^ 64 := by
  have hmod : (Int.bmod x.toBitVec.toNat (2 ^ 64)) % ((2 ^ 64 : ℕ) : ℤ) = x.toBitVec.toNat := by
    rw [Int.bmod_emod]
    exact Int.emod_eq_of_lt (Int.natCast_nonneg _) (by exact_mod_cast x.toBitVec.isLt)
  rw [← Int64.toInt_toBitVec, BitVec.toInt_eq_toNat_bmod]
  exact hmod.symm

theorem toNat_toUInt64_of_nonneg {x : Int64} (h : 0 ≤ x.toInt) :
    x.toUInt64.toNat = x.toInt.toNat := by
  have hmod := toNat_toUInt64 x
  rw [Int.emod_eq_of_lt h (by have := x.toInt_lt; omega)] at hmod
  omega

theorem toInt_toInt64 (u : UInt64) : u.toInt64.toInt = Int.bmod u.toNat (2 ^ 64) := by
  rw [← Int64.toInt_toBitVec, BitVec.toInt_eq_toNat_bmod]
  rfl

theorem bmod_eq_self {x : ℤ} (h : -2 ^ 63 ≤ x) (h' : x < 2 ^ 63) : Int.bmod x (2 ^ 64) = x :=
  Int.bmod_eq_of_le_mul_two (by omega) (by omega)

theorem absUint64_fst (v : Int64) : (absUint64 v).1.toNat = v.toInt.natAbs := by
  have hlo := v.le_toInt
  have hhi := v.toInt_lt
  rw [absUint64]
  split
  · rename_i hneg
    have hneg : v.toInt < 0 := Int64.lt_iff_toInt_lt.mp hneg
    have hnot : (~~~v).toInt = -v.toInt - 1 := by
      rw [Int64.toInt_not, bmod_eq_self (by omega) (by omega)]
    rw [UInt64.toNat_add, toNat_toUInt64_of_nonneg (by omega), hnot]
    have hone : (1 : UInt64).toNat = 1 := rfl
    omega
  · rename_i hpos
    have hpos : ¬ v.toInt < 0 := fun h => hpos (Int64.lt_iff_toInt_lt.mpr h)
    have hsame := toNat_toUInt64_of_nonneg (not_lt.mp hpos)
    show v.toUInt64.toNat = v.toInt.natAbs
    omega

theorem absUint64_snd (v : Int64) : (absUint64 v).2 = true ↔ v.toInt < 0 := by
  rw [absUint64]
  split
  · rename_i hneg
    exact iff_of_true rfl (Int64.lt_iff_toInt_lt.mp hneg)
  · rename_i hpos
    exact iff_of_false nofun fun h => hpos (Int64.lt_iff_toInt_lt.mpr h)

/-- The two words of the product divide like the product. -/
theorem div64_mul64 {x y d : UInt64} (hlt : x.toNat * y.toNat < d.toNat * 2 ^ 64) :
    div64 (mul64 x y).1 (mul64 x y).2 d =
      .ok (UInt64.ofNat (x.toNat * y.toNat / d.toNat),
        UInt64.ofNat (x.toNat * y.toNat % d.toNat)) := by
  have hhi : x.toNat * y.toNat / 2 ^ 64 < d.toNat := Nat.div_lt_of_lt_mul (by omega)
  have hd64 := d.toNat_lt
  have hfst : (mul64 x y).1.toNat = x.toNat * y.toNat / 2 ^ 64 :=
    UInt64.toNat_ofNat_of_lt' (hhi.trans hd64)
  have hsnd : (mul64 x y).2.toNat = x.toNat * y.toNat % 2 ^ 64 :=
    UInt64.toNat_ofNat_of_lt' (Nat.mod_lt _ (by decide))
  have hnot : ¬ d ≤ (mul64 x y).1 := by
    rw [UInt64.le_iff_toNat_le, hfst]
    omega
  have hwhole : x.toNat * y.toNat / 2 ^ 64 * 2 ^ 64 + x.toNat * y.toNat % 2 ^ 64 =
      x.toNat * y.toNat := by
    rw [Nat.mul_comm]
    exact Nat.div_add_mod _ _
  rw [div64, if_neg hnot, hfst, hsnd, hwhole]

/-! ### One party's part -/

/-- `n` on the amount's side of zero. -/
def signed (amount : ℤ) (n : ℕ) : ℤ := if amount < 0 then -n else n

theorem signed_add (a : ℤ) (m n : ℕ) : signed a (m + n) = signed a m + signed a n := by
  simp only [signed]
  split <;> push_cast <;> ring

theorem signed_one_mul (a : ℤ) (n : ℕ) : signed a 1 * n = signed a n := by
  simp only [signed]
  split <;> simp

theorem sum_signed (a : ℤ) (l : List ℕ) : (l.map (signed a)).sum = signed a l.sum := by
  induction l with
  | nil => simp [signed]
  | cons n l ih => rw [List.map_cons, List.sum_cons, ih, List.sum_cons, signed_add]

theorem natAbs_signed (a : ℤ) (n : ℕ) : (signed a n).natAbs = n := by
  rw [signed]
  split <;> omega

/-- The exact share and remainder of a party. -/
structure Part (amount total r : Int64) (share rem : Int64) : Prop where
  share : share.toInt =
    signed amount.toInt (amount.toInt.natAbs * r.toInt.toNat / total.toInt.toNat)
  rem : rem.toInt = (amount.toInt.natAbs * r.toInt.toNat % total.toInt.toNat : ℕ)

theorem Part.unique {amount total r s s' m m' : Int64} (h : Part amount total r s m)
    (h' : Part amount total r s' m') :
    s = s' ∧ m = m' :=
  ⟨Int64.toInt_inj.mp (h.share.trans h'.share.symm), Int64.toInt_inj.mp (h.rem.trans h'.rem.symm)⟩

section Part

variable {amount total r : Int64}

theorem quotient_le (ht : 0 < total.toInt) (hle : r.toInt ≤ total.toInt) :
    amount.toInt.natAbs * r.toInt.toNat / total.toInt.toNat ≤ amount.toInt.natAbs := by
  refine Nat.div_le_of_le_mul ?_
  rw [Nat.mul_comm total.toInt.toNat]
  exact Nat.mul_le_mul_left _ (by omega)

theorem widePart_of_div64 {q rem : UInt64}
    (h : div64 (mul64 (absUint64 amount).1 r.toUInt64).1 (mul64 (absUint64 amount).1 r.toUInt64).2
      total.toUInt64 = .ok (q, rem)) :
    widePart amount total r = .ok (if (absUint64 amount).2 then -q.toInt64 else q.toInt64,
      rem.toInt64) := by
  show (div64 (mul64 (absUint64 amount).1 r.toUInt64).1 (mul64 (absUint64 amount).1 r.toUInt64).2
      total.toUInt64 >>= _) = _
  rw [h]
  rfl

theorem widePart_spec (amount : Int64) (ht : 0 < total.toInt) (hr : 0 ≤ r.toInt)
    (hle : r.toInt ≤ total.toInt) :
    ∃ share rem, widePart amount total r = .ok (share, rem) ∧ Part amount total r share rem := by
  have hlo := amount.le_toInt
  have hhi := amount.toInt_lt
  have htop := total.toInt_lt
  have hA : (absUint64 amount).1.toNat = amount.toInt.natAbs := absUint64_fst amount
  have hR : r.toUInt64.toNat = r.toInt.toNat := toNat_toUInt64_of_nonneg hr
  have hT : total.toUInt64.toNat = total.toInt.toNat := toNat_toUInt64_of_nonneg ht.le
  have hq := @quotient_le amount total r ht hle
  have hm : amount.toInt.natAbs * r.toInt.toNat % total.toInt.toNat < total.toInt.toNat :=
    Nat.mod_lt _ (by omega)
  have hprod : (absUint64 amount).1.toNat * r.toUInt64.toNat < total.toUInt64.toNat * 2 ^ 64 := by
    rw [hA, hR, hT, Nat.mul_comm total.toInt.toNat]
    calc amount.toInt.natAbs * r.toInt.toNat ≤ 2 ^ 63 * total.toInt.toNat :=
          Nat.mul_le_mul (by omega) (by omega)
      _ < 2 ^ 64 * total.toInt.toNat := Nat.mul_lt_mul_of_pos_right (by decide) (by omega)
  have hdiv := div64_mul64 hprod
  rw [hA, hR, hT] at hdiv
  have hsize : UInt64.size = 2 ^ 64 := rfl
  have hqnat : (UInt64.ofNat (amount.toInt.natAbs * r.toInt.toNat / total.toInt.toNat)).toNat =
      amount.toInt.natAbs * r.toInt.toNat / total.toInt.toNat :=
        UInt64.toNat_ofNat_of_lt' (by omega)
  have hmnat : (UInt64.ofNat (amount.toInt.natAbs * r.toInt.toNat % total.toInt.toNat)).toNat =
      amount.toInt.natAbs * r.toInt.toNat % total.toInt.toNat :=
        UInt64.toNat_ofNat_of_lt' (by omega)
  refine ⟨_, _, widePart_of_div64 hdiv, ?_, ?_⟩
  · rw [signed]
    by_cases hneg : amount.toInt < 0
    · -- The quotient may be 2^63, which only its negative fits.
      rw [if_pos ((absUint64_snd amount).mpr hneg), if_pos hneg, Int64.toInt_neg, toInt_toInt64,
        hqnat, Int.bmod_neg_bmod]
      exact bmod_eq_self (by omega) (by omega)
    · rw [if_neg (fun h => hneg ((absUint64_snd amount).mp h)), if_neg hneg, toInt_toInt64, hqnat]
      exact bmod_eq_self (by omega) (by omega)
  · rw [toInt_toInt64, hmnat]
    exact bmod_eq_self (by omega) (by omega)

theorem tdiv_bounds {p d : ℤ} (hp : -2 ^ 63 ≤ p ∧ p < 2 ^ 63) (hd : 0 < d) :
    -2 ^ 63 ≤ p.tdiv d ∧ p.tdiv d < 2 ^ 63 := by
  rcases le_total 0 p with h | h
  · exact ⟨by have := Int.tdiv_nonneg h hd.le; omega, by have := Int.tdiv_le_self d h; omega⟩
  · have hneg : p.tdiv d = -(-p).tdiv d := by rw [Int.neg_tdiv, neg_neg]
    have hle := Int.tdiv_le_self d (show 0 ≤ -p by omega)
    have hge := Int.tdiv_nonneg (show 0 ≤ -p by omega) hd.le
    omega

theorem mul_exact (hr : 0 < r.toInt) (hdiv : amount * r / r = amount) :
    (amount * r).toInt = amount.toInt * r.toInt := by
  have hrange : -2 ^ 63 ≤ (amount * r).toInt ∧ (amount * r).toInt < 2 ^ 63 :=
    ⟨Int64.le_toInt _, Int64.toInt_lt _⟩
  have hback : (amount * r).toInt.tdiv r.toInt = amount.toInt := by
    have h := congrArg Int64.toInt hdiv
    have hb := tdiv_bounds hrange hr
    rwa [Int64.toInt_div, bmod_eq_self hb.1 hb.2] at h
  have hsplit := Int.mul_tdiv_add_tmod (amount * r).toInt r.toInt
  have hsmall : ((amount * r).toInt.tmod r.toInt).natAbs < r.toInt.natAbs := by
    rw [Int.natAbs_tmod]
    exact Nat.mod_lt _ (by omega)
  -- What the wrapping took away is a multiple of 2^64, and smaller than the divisor.
  obtain ⟨k, hk⟩ : (2 ^ 64 : ℤ) ∣ (amount * r).toInt - amount.toInt * r.toInt := by
    rw [Int64.toInt_mul]
    exact Int.dvd_bmod_sub_self
  have hr63 := r.toInt_lt
  rw [hback, mul_comm] at hsplit
  omega

theorem tdiv_signed {a : ℤ} (n d : ℕ) : (signed a n).tdiv d = signed a (n / d) := by
  rw [signed, signed]
  split
  · rw [Int.neg_tdiv, Int.ofNat_tdiv]
  · rw [Int.ofNat_tdiv]

theorem natAbs_tmod_signed {a : ℤ} (n d : ℕ) : ((signed a n).tmod d).natAbs = n % d := by
  rw [Int.natAbs_tmod, signed]
  split <;> simp

theorem signed_natAbs_mul (a : ℤ) {r : ℤ} (hr : 0 ≤ r) : a * r = signed a (a.natAbs * r.toNat) := by
  rw [signed]
  split <;> push_cast <;> rw [Int.toNat_of_nonneg hr]
  · rename_i hneg
    rw [abs_of_neg hneg, neg_mul, neg_neg]
  · rename_i hpos
    rw [abs_of_nonneg (not_lt.mp hpos)]

theorem narrowPart_spec (ht : 0 < total.toInt) (hr : 0 ≤ r.toInt) {share rem : Int64}
    (h : narrowPart amount total r = .ok (share, rem)) : Part amount total r share rem := by
  rw [narrowPart] at h
  split at h
  · cases h
  · simp only at h
    split at h
    · cases h
    · rename_i hcheck
      have hprod : (amount * r).toInt =
          signed amount.toInt (amount.toInt.natAbs * r.toInt.toNat) := by
        rw [← signed_natAbs_mul amount.toInt hr]
        by_cases hzero : r = 0
        · subst hzero
          rw [Int64.mul_zero]
          simp
        · have hpos : r.toInt ≠ 0 := fun h0 => hzero (Int64.toInt_inj.mp h0)
          exact mul_exact (by omega) (not_not.mp fun hne => hcheck ⟨hzero, hne⟩)
      have htotal : total.toInt = (total.toInt.toNat : ℤ) := (Int.toNat_of_nonneg ht.le).symm
      have hrange : -2 ^ 63 ≤ (amount * r).toInt ∧ (amount * r).toInt < 2 ^ 63 :=
        ⟨Int64.le_toInt _, Int64.toInt_lt _⟩
      cases h
      refine ⟨?_, ?_⟩
      · have hb := tdiv_bounds hrange ht
        rw [Int64.toInt_div, bmod_eq_self hb.1 hb.2, hprod, htotal, tdiv_signed]
        rfl
      · have hmod : (amount * r % total).toInt.natAbs =
            amount.toInt.natAbs * r.toInt.toNat % total.toInt.toNat := by
          rw [Int64.toInt_mod, hprod, htotal, natAbs_tmod_signed]
          rfl
        have hlt :=
          Nat.mod_lt (amount.toInt.natAbs * r.toInt.toNat) (show 0 < total.toInt.toNat by omega)
        have htop := total.toInt_lt
        split
        · rename_i hneg
          have hneg : (amount * r % total).toInt < 0 := Int64.lt_iff_toInt_lt.mp hneg
          rw [Int64.toInt_neg, bmod_eq_self (by omega) (by omega)]
          omega
        · rename_i hpos
          have hpos : ¬ (amount * r % total).toInt < 0 :=
            fun h => hpos (Int64.lt_iff_toInt_lt.mpr h)
          omega

end Part

/-! ### The sum of the ratios -/

def total (ratios : List Int64) : ℤ := (ratios.map Int64.toInt).sum

variable {ratios : List Int64}

theorem sumRatiosFrom_ok {acc : Int64} (hacc : 0 ≤ acc.toInt) (hnonneg : ∀ r ∈ ratios, 0 ≤ r.toInt)
    (hpos : 0 < acc.toInt + total ratios) (hlt : acc.toInt + total ratios < 2 ^ 63) :
    ∃ t, sumRatiosFrom acc ratios = .ok t ∧ t.toInt = acc.toInt + total ratios := by
  induction ratios generalizing acc with
  | nil =>
    have hne : acc ≠ 0 := by
      rintro rfl
      exact absurd hpos (by decide)
    exact ⟨acc, by rw [sumRatiosFrom, if_neg hne], (add_zero _).symm⟩
  | cons r ratios ih =>
    have hr := hnonneg r (.head _)
    have hrest : 0 ≤ total ratios := List.sum_nonneg (by
      intro x hx
      obtain ⟨y, hy, rfl⟩ := List.mem_map.mp hx
      exact hnonneg y (.tail _ hy))
    have htotal : total (r :: ratios) = r.toInt + total ratios := List.sum_cons
    have hadd : (acc + r).toInt = acc.toInt + r.toInt := by
      rw [Int64.toInt_add, bmod_eq_self (by omega) (by omega)]
    obtain ⟨t, ht, hsum⟩ :=
      ih (show 0 ≤ (acc + r).toInt by omega) (fun x hx => hnonneg x (.tail _ hx))
      (by omega) (by omega)
    refine ⟨t, ?_, by omega⟩
    rw [sumRatiosFrom, if_neg, if_neg, ht]
    · rw [Int64.lt_iff_toInt_lt]
      omega
    · rw [Int64.lt_iff_toInt_lt]
      exact not_lt.mpr hr

theorem of_sumRatiosFrom_ok {acc t : Int64} (hacc : 0 ≤ acc.toInt)
    (h : sumRatiosFrom acc ratios = .ok t) :
    (∀ r ∈ ratios, 0 ≤ r.toInt) ∧ t.toInt = acc.toInt + total ratios ∧ 0 < t.toInt := by
  induction ratios generalizing acc with
  | nil =>
    rw [sumRatiosFrom] at h
    split at h
    · cases h
    · rename_i hne
      have hne : acc.toInt ≠ 0 := fun h0 => hne (Int64.toInt_inj.mp h0)
      cases h
      exact ⟨nofun, (add_zero _).symm, by omega⟩
  | cons r ratios ih =>
    rw [sumRatiosFrom] at h
    split_ifs at h with hneg hover
    have hr : 0 ≤ r.toInt := not_lt.mp fun hlt => hneg (Int64.lt_iff_toInt_lt.mpr hlt)
    have hnext : acc.toInt ≤ (acc + r).toInt :=
      not_lt.mp fun hlt => hover (Int64.lt_iff_toInt_lt.mpr hlt)
    have hadd : (acc + r).toInt = acc.toInt + r.toInt := by
      have hlo := acc.toInt_lt
      have hhi := r.toInt_lt
      rw [Int64.toInt_add] at hnext ⊢
      by_cases hsmall : acc.toInt + r.toInt < 2 ^ 63
      · exact bmod_eq_self (by omega) hsmall
      · have hwrap : Int.bmod (acc.toInt + r.toInt) (2 ^ 64) = acc.toInt + r.toInt - 2 ^ 64 := by
          rw [Int.bmod_def]
          omega
        omega
    obtain ⟨hall, hsum, hpos⟩ := ih (by omega) h
    have htotal : total (r :: ratios) = r.toInt + total ratios := List.sum_cons
    refine ⟨fun x hx => ?_, by omega, hpos⟩
    rcases List.mem_cons.mp hx with rfl | hx
    · exact hr
    · exact hall x hx

theorem le_total (h : ∀ r ∈ ratios, 0 ≤ r.toInt) {r : Int64} (hr : r ∈ ratios) :
    r.toInt ≤ total ratios := by
  refine List.single_le_sum (fun x hx => ?_) _ (List.mem_map_of_mem hr)
  obtain ⟨y, hy, rfl⟩ := List.mem_map.mp hx
  exact h y hy

/-! ### The leftover units -/

/-- After `k` of the units are given out: a party has its exact share and remainder, or one unit
more and no remainder that could be chosen again. -/
inductive Given (step : ℤ) (currency : Currency) : List (ℤ × ℕ) → List Money → List Int64 → ℕ → Prop
  | nil : Given step currency [] [] [] 0
  | keep {e : ℤ × ℕ} {x : Money} {rem : Int64} {l : List (ℤ × ℕ)} {xs : List Money}
    {rs : List Int64} {k : ℕ} :
      x.amount.toInt = e.1 → x.currency = currency → rem.toInt = e.2 →
        Given step currency l xs rs k →
      Given step currency (e :: l) (x :: xs) (rem :: rs) k
  | bump {e : ℤ × ℕ} {x : Money} {rem : Int64} {l : List (ℤ × ℕ)} {xs : List Money}
    {rs : List Int64} {k : ℕ} :
      x.amount.toInt = e.1 + step → x.currency = currency → 0 < e.2 → rem = -1 →
        Given step currency l xs rs k →
      Given step currency (e :: l) (x :: xs) (rem :: rs) (k + 1)

section Given

variable {step : Int64} {currency : Currency} {l : List (ℤ × ℕ)} {xs : List Money}
  {rs : List Int64} {k : ℕ}

theorem Given.countP (h : Given step.toInt currency l xs rs k) :
    (rs.countP fun rem => 0 < rem.toInt) + k = l.countP fun e => 0 < e.2 := by
  induction h with
  | nil => rfl
  | @keep e x rem l xs rs k _ _ hm _ ih =>
    rw [List.countP_cons, List.countP_cons, ← ih, hm]
    have hiff : (0 < (e.2 : ℤ)) ↔ 0 < e.2 := Int.natCast_pos
    simp only [hiff]
    omega
  | bump _ _ hpos hm _ ih =>
    rw [List.countP_cons, List.countP_cons, ← ih, hm, if_neg (by decide),
      if_pos (decide_eq_true hpos)]
    omega

theorem Given.give {rem : Int64} {i : ℕ} (h : Given step.toInt currency l xs rs k)
    (hi : rs[i]? = some rem) (hpos : 0 < rem.toInt)
    (hfit : ∀ e ∈ l, 0 < e.2 → -2 ^ 63 ≤ e.1 + step.toInt ∧ e.1 + step.toInt < 2 ^ 63) :
    Given step.toInt currency l (xs.modify i fun m => { m with amount := m.amount + step })
      (rs.set i (-1)) (k + 1) := by
  induction h generalizing i with
  | nil => cases hi
  | @keep e x rem' l xs rs k hs hc hm hrest ih =>
    cases i with
    | zero =>
      cases hi
      have hepos : 0 < e.2 := by omega
      have hb := hfit e (.head _) hepos
      refine .bump ?_ hc hepos rfl hrest
      show (x.amount + step).toInt = _
      rw [Int64.toInt_add, hs, bmod_eq_self hb.1 hb.2]
    | succ i => exact .keep hs hc hm (ih hi fun e he => hfit e (.tail _ he))
  | @bump e x rem' l xs rs k hs hc hepos hm hrest ih =>
    cases i with
    | zero =>
      cases hi
      rw [hm] at hpos
      exact absurd hpos (by decide)
    | succ i => exact .bump hs hc hepos hm (ih hi fun e he => hfit e (.tail _ he))

/-- The search ends at a positive entry if it started with one or finds one. -/
theorem bestFrom_spec (all : List Int64) (i bestIdx : ℕ) (bestRem : Int64) (rest : List Int64)
    (hrest : all.drop i = rest) (hbest : 0 < bestRem.toInt → all[bestIdx]? = some bestRem)
    (h : 0 < bestRem.toInt ∨ ∃ rem ∈ rest, 0 < rem.toInt) :
    ∃ rem, all[bestFrom i bestIdx bestRem rest]? = some rem ∧ 0 < rem.toInt := by
  induction rest generalizing i bestIdx bestRem with
  | nil =>
    have hpos : 0 < bestRem.toInt := h.resolve_right nofun
    exact ⟨bestRem, hbest hpos, hpos⟩
  | cons rem rest ih =>
    have hat : all[i]? = some rem := by
      rw [← List.head?_drop, hrest]
      rfl
    have hnext : all.drop (i + 1) = rest := by
      rw [← List.tail_drop, hrest]
      rfl
    rw [bestFrom]
    split
    · rename_i hlt
      have hlt := Int64.lt_iff_toInt_lt.mp hlt
      refine ih (i + 1) i rem hnext (fun _ => hat) ?_
      rcases h with h | ⟨x, hx, hpos⟩
      · exact .inl (h.trans hlt)
      · rcases List.mem_cons.mp hx with rfl | hx
        · exact .inl hpos
        · exact .inr ⟨x, hx, hpos⟩
    · rename_i hle
      have hle := not_lt.mp fun hlt => hle (Int64.lt_iff_toInt_lt.mpr hlt)
      refine ih (i + 1) bestIdx bestRem hnext hbest ?_
      rcases h with h | ⟨x, hx, hpos⟩
      · exact .inl h
      · rcases List.mem_cons.mp hx with rfl | hx
        · exact .inl (hpos.trans_le hle)
        · exact .inr ⟨x, hx, hpos⟩

theorem best_spec (h : ∃ rem ∈ rs, 0 < rem.toInt) :
    ∃ rem, rs[best rs]? = some rem ∧ 0 < rem.toInt :=
  bestFrom_spec rs 0 0 (-1) rs rfl (fun hpos => absurd hpos (by decide)) (.inr h)

/-- The loop: as many units as parties with a remainder can be given out. -/
theorem Given.run {n : ℕ} (h : Given step.toInt currency l xs rs k)
    (hn : k + n ≤ l.countP fun e => 0 < e.2)
    (hfit : ∀ e ∈ l, 0 < e.2 → -2 ^ 63 ≤ e.1 + step.toInt ∧ e.1 + step.toInt < 2 ^ 63) :
    ∃ rs', Given step.toInt currency l (MoneyAllocation.give step n xs rs) rs' (k + n) := by
  induction n generalizing xs rs k with
  | zero => exact ⟨rs, h⟩
  | succ n ih =>
    have hcount := h.countP
    have hex : ∃ rem ∈ rs, 0 < rem.toInt := by
      have hpos : 0 < rs.countP fun rem => 0 < rem.toInt := by omega
      obtain ⟨rem, hrem, hp⟩ := List.countP_pos_iff.mp hpos
      exact ⟨rem, hrem, of_decide_eq_true hp⟩
    obtain ⟨rem, hat, hpos⟩ := best_spec hex
    have hstep := h.give hat hpos hfit
    obtain ⟨rs', hrun⟩ := ih hstep (by omega)
    refine ⟨rs', ?_⟩
    rw [MoneyAllocation.give, show k + (n + 1) = k + 1 + n by omega]
    exact hrun

theorem Given.sum (h : Given step.toInt currency l xs rs k) :
    (xs.map fun m => m.amount.toInt).sum = (l.map Prod.fst).sum + step.toInt * k := by
  induction h with
  | nil => simp
  | keep hs _ _ _ ih =>
    rw [List.map_cons, List.map_cons, List.sum_cons, List.sum_cons, ih, hs]; ring
  | bump hs _ _ _ _ ih =>
    rw [List.map_cons, List.map_cons, List.sum_cons, List.sum_cons, ih, hs]; push_cast; ring

end Given

end Foundation.MoneyAllocation
