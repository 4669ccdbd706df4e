import Foundation.Sanity.Money
import Mathlib.Data.Rat.Cast.Order
import Mathlib.Algebra.Order.Field.Basic
import Mathlib.Tactic.FieldSimp

/-! An allocation hands out exactly the amount, and no party's share is a whole unit away from its
exact one. Where the 64-bit allocation succeeds it agrees with the 128-bit one. -/

namespace Foundation.MoneyAllocation

/-! ### The loop over the ratios -/

/-- The exact quotients and remainders. -/
def exactParts (amount totalRatio : Int64) (ratios : List Int64) : List (ℤ × ℕ) :=
  ratios.map fun r =>
    (signed amount.toInt (amount.toInt.natAbs * r.toInt.toNat / totalRatio.toInt.toNat),
    amount.toInt.natAbs * r.toInt.toNat % totalRatio.toInt.toNat)

theorem partLoop_exact {part : Int64 → Except Failure (Int64 × Int64)} {amount totalRatio : Int64}
    {ratios : List Int64}
    (hpart : ∀ r ∈ ratios, ∃ share rem, part r = .ok (share, rem) ∧
      Part amount totalRatio r share rem) (currency : Currency) (step : ℤ) (shares : List Money)
    (remainders : List Int64) (allocated : Int64) :
    ∃ xs rs acc, partLoop part currency ratios shares remainders allocated = .ok (shares ++ xs,
      remainders ++ rs, acc) ∧
      Given step currency (exactParts amount totalRatio ratios) xs rs 0 ∧
      acc.toInt =
        Int.bmod (allocated.toInt + ((exactParts amount totalRatio ratios).map Prod.fst).sum)
        (2 ^ 64) := by
  induction ratios generalizing shares remainders allocated with
  | nil =>
    refine ⟨[], [], allocated, by rw [partLoop, List.append_nil, List.append_nil], .nil, ?_⟩
    exact (bmod_eq_self (by simpa [exactParts] using allocated.le_toInt)
      (by simpa [exactParts] using allocated.toInt_lt)).symm.trans
      (by simp [exactParts])
  | cons r ratios ih =>
    obtain ⟨share, rem, hr, hexact⟩ := hpart r (.head _)
    obtain ⟨xs, rs, acc, hloop, hgiven, hacc⟩ :=
      ih (fun x hx => hpart x (.tail _ hx)) (shares ++ [⟨share, currency⟩])
      (remainders ++ [rem]) (allocated + share)
    refine ⟨⟨share, currency⟩ :: xs, rem :: rs, acc, ?_, .keep hexact.share rfl hexact.rem hgiven,
      ?_⟩
    · rw [partLoop, hr]
      rw [List.append_assoc, List.append_assoc] at hloop
      exact hloop
    · rw [hacc, Int64.toInt_add, Int.bmod_add_bmod, hexact.share, add_assoc]
      rfl

theorem partLoop_mono {part part' : Int64 → Except Failure (Int64 × Int64)} {ratios : List Int64}
    (h : ∀ r ∈ ratios, ∀ v, part r = .ok v → part' r = .ok v) {currency : Currency}
    {shares : List Money} {remainders : List Int64} {allocated : Int64}
    {v : List Money × List Int64 × Int64}
    (hloop : partLoop part currency ratios shares remainders allocated = .ok v) :
    partLoop part' currency ratios shares remainders allocated = .ok v := by
  induction ratios generalizing shares remainders allocated with
  | nil => exact hloop
  | cons r ratios ih =>
    rw [partLoop] at hloop ⊢
    cases hr : part r with
    | error e =>
      rw [hr] at hloop
      cases hloop
    | ok p =>
      rw [hr] at hloop
      rw [h r (.head _) p hr]
      exact ih (fun x hx => h x (.tail _ hx)) hloop

/-! ### The whole allocation -/

def weights (ratios : List Int64) : List ℕ := ratios.map fun r => r.toInt.toNat

theorem sum_weights {ratios : List Int64} (h : ∀ r ∈ ratios, 0 ≤ r.toInt) :
    ((weights ratios).sum : ℤ) = total ratios := by
  induction ratios with
  | nil => rfl
  | cons r ratios ih =>
    have hr := h r (.head _)
    have htotal : total (r :: ratios) = r.toInt + total ratios := List.sum_cons
    rw [htotal, ← ih fun x hx => h x (.tail _ hx), weights, List.map_cons, List.sum_cons,
      Nat.cast_add, Int.toNat_of_nonneg hr]
    rfl

/-- A share within one unit of its exact part of the amount, never of the other sign, nothing for a
ratio of zero, and in the currency of the amount. -/
structure Fair (amount totalRatio : ℤ) (currency : Currency) (r : Int64) (share : Money) :
  Prop where
  quota : |(share.amount.toInt : ℚ) - amount * r.toInt / totalRatio| < 1
  side : (0 ≤ amount → 0 ≤ share.amount.toInt) ∧ (amount ≤ 0 → share.amount.toInt ≤ 0)
  zero : r.toInt = 0 → share.amount.toInt = 0
  currency : share.currency = currency

theorem fair_of_signed {amount totalRatio r : Int64} {share : Money} {n : ℕ}
    (ht : 0 < totalRatio.toInt) (hr : 0 ≤ r.toInt)
    (hshare : share.amount.toInt = signed amount.toInt n)
    (hlt : n * totalRatio.toInt.toNat < amount.toInt.natAbs * r.toInt.toNat +
      totalRatio.toInt.toNat)
    (hgt : amount.toInt.natAbs * r.toInt.toNat < n * totalRatio.toInt.toNat +
      totalRatio.toInt.toNat) (hzero : amount.toInt.natAbs * r.toInt.toNat = 0 → n = 0) :
    Fair amount.toInt totalRatio.toInt share.currency r share := by
  have hT : (totalRatio.toInt.toNat : ℤ) = totalRatio.toInt := Int.toNat_of_nonneg ht.le
  have hdist : |signed amount.toInt n * totalRatio.toInt - amount.toInt * r.toInt| <
      totalRatio.toInt := by
    rw [signed_natAbs_mul amount.toInt hr, abs_lt, signed, signed]
    zify at hlt hgt
    rw [hT] at hlt hgt
    push_cast
    split <;> constructor <;> linarith
  refine ⟨?_, ⟨fun ha => ?_, fun ha => ?_⟩, fun h0 => ?_, rfl⟩
  · have hTQ : (0 : ℚ) < totalRatio.toInt := by exact_mod_cast ht
    have heq : (share.amount.toInt : ℚ) - amount.toInt * r.toInt / totalRatio.toInt =
        ((signed amount.toInt
          n * totalRatio.toInt - amount.toInt * r.toInt : ℤ) : ℚ) / totalRatio.toInt := by
      rw [hshare]
      push_cast
      field_simp
    rw [heq, abs_div, abs_of_pos hTQ, div_lt_one hTQ]
    exact_mod_cast hdist
  · rw [hshare, signed, if_neg (not_lt.mpr ha)]
    exact Int.natCast_nonneg n
  · rw [hshare, signed]
    split
    · omega
    · have hz : amount.toInt.natAbs = 0 := by omega
      rw [hzero (by rw [hz, Nat.zero_mul])]
      exact le_rfl
  · have hn : n = 0 := hzero (by rw [h0]; exact Nat.mul_zero _)
    rw [hshare, hn, signed]
    split <;> rfl

theorem Given.fair {amount totalRatio : Int64} {currency : Currency} {ratios : List Int64}
    {xs : List Money} {rs : List Int64} {k : ℕ} (ht : 0 < totalRatio.toInt)
    (hnonneg : ∀ r ∈ ratios, 0 ≤ r.toInt)
    (h : Given (signed amount.toInt 1) currency (exactParts amount totalRatio ratios) xs rs k) :
    List.Forall₂ (Fair amount.toInt totalRatio.toInt currency) ratios xs := by
  induction ratios generalizing xs rs k with
  | nil =>
    cases h
    exact .nil
  | cons r ratios ih =>
    have hdm := Nat.div_add_mod' (amount.toInt.natAbs * r.toInt.toNat) totalRatio.toInt.toNat
    have hm :=
      Nat.mod_lt (amount.toInt.natAbs * r.toInt.toNat) (show 0 < totalRatio.toInt.toNat by omega)
    have hr := hnonneg r (.head _)
    have hrest : ∀ x ∈ ratios, 0 ≤ x.toInt := fun x hx => hnonneg x (.tail _ hx)
    cases h with
    | keep hs hc _ hgiven =>
      refine .cons ?_ (ih hrest hgiven)
      rw [← hc]
      refine fair_of_signed ht hr hs (by omega) (by omega) fun h0 => ?_
      rw [h0, Nat.zero_div]
    | bump hs hc hpos _ hgiven =>
      refine .cons ?_ (ih hrest hgiven)
      rw [← hc]
      rw [← signed_add] at hs
      have hpos : 0 < amount.toInt.natAbs * r.toInt.toNat % totalRatio.toInt.toNat := hpos
      refine fair_of_signed ht hr hs ?_ ?_ fun h0 => ?_
      · rw [Nat.add_mul, Nat.one_mul]
        omega
      · rw [Nat.add_mul, Nat.one_mul]
        omega
      · rw [h0, Nat.zero_mod] at hpos
        exact absurd hpos (lt_irrefl 0)

/-- Giving one unit more to a party with a remainder stays within the amount. -/
theorem exactParts_fit {amount totalRatio : Int64} {ratios : List Int64} (ht : 0 < totalRatio.toInt)
    (hle : ∀ r ∈ ratios, r.toInt ≤ totalRatio.toInt) {e : ℤ × ℕ}
    (he : e ∈ exactParts amount totalRatio ratios) (hpos : 0 < e.2) :
    -2 ^ 63 ≤ e.1 + signed amount.toInt 1 ∧ e.1 + signed amount.toInt 1 < 2 ^ 63 := by
  obtain ⟨r, hr, rfl⟩ := List.mem_map.mp he
  have hlo := amount.le_toInt
  have hhi := amount.toInt_lt
  have hdm := Nat.div_add_mod' (amount.toInt.natAbs * r.toInt.toNat) totalRatio.toInt.toNat
  have hbound : amount.toInt.natAbs * r.toInt.toNat ≤
      amount.toInt.natAbs * totalRatio.toInt.toNat :=
    Nat.mul_le_mul_left _ (by have := hle r hr; omega)
  have hlt : amount.toInt.natAbs * r.toInt.toNat / totalRatio.toInt.toNat <
      amount.toInt.natAbs := by
    refine Nat.lt_of_mul_lt_mul_right (a := totalRatio.toInt.toNat) ?_
    have hpos : 0 < amount.toInt.natAbs * r.toInt.toNat % totalRatio.toInt.toNat := hpos
    omega
  generalize amount.toInt.natAbs * r.toInt.toNat / totalRatio.toInt.toNat = q at hlt
  rw [← signed_add, signed]
  split <;> omega

theorem map_fst_exactParts (amount totalRatio : Int64) (ratios : List Int64) :
    (exactParts amount totalRatio ratios).map Prod.fst =
      (LargestRemainder.quotients amount.toInt.natAbs totalRatio.toInt.toNat (weights ratios)).map
        (signed amount.toInt) := by
  simp only [exactParts, LargestRemainder.quotients, weights, List.map_map]
  rfl

theorem countP_exactParts (amount totalRatio : Int64) (ratios : List Int64) :
    ((exactParts amount totalRatio ratios).countP fun e => 0 < e.2) =
      (weights ratios).countP fun r => 0 < amount.toInt.natAbs * r % totalRatio.toInt.toNat := by
  simp only [exactParts, weights, List.countP_map]
  rfl

def unit (amount : Int64) : Int64 := if amount.toInt < 0 then -1 else 1

theorem unit_toInt (amount : Int64) : (unit amount).toInt = signed amount.toInt 1 := by
  rw [unit, signed]
  split <;> rfl

theorem distributeLeftover_eq {amount left : Int64} {units : ℕ} (xs : List Money) (rs : List Int64)
    (hleft : left.toInt = signed amount.toInt units) (hlt : units < 2 ^ 63) :
    distributeLeftover xs rs left = give (unit amount) units xs rs := by
  rw [distributeLeftover]
  by_cases hzero : units = 0
  · subst hzero
    have h0 : left = 0 := Int64.toInt_inj.mp (hleft.trans (by rw [signed]; split <;> rfl))
    rw [if_pos h0]
    rfl
  · have hne : left ≠ 0 := by
      rintro rfl
      have habs := natAbs_signed amount.toInt units
      rw [← hleft] at habs
      exact hzero habs.symm
    rw [if_neg hne]
    by_cases hneg : amount.toInt < 0
    · rw [signed, if_pos hneg] at hleft
      have hlneg : left < 0 :=
        Int64.lt_iff_toInt_lt.mpr (by rw [hleft]; show -(units : ℤ) < 0; omega)
      have hcount : (-left).toInt = units := by
        rw [Int64.toInt_neg, hleft, bmod_eq_self (by omega) (by omega), neg_neg]
      simp only [if_pos hlneg, hcount, Int.toNat_natCast, unit, if_pos hneg]
    · rw [signed, if_neg hneg] at hleft
      have hlpos : ¬ left < 0 :=
        fun h => absurd (Int64.lt_iff_toInt_lt.mp h) (by rw [hleft]; show ¬ (units : ℤ) < 0; omega)
      simp only [if_neg hlpos, hleft, Int.toNat_natCast, unit, if_neg hneg]

section Leftover

variable {amount totalRatio acc : Int64} {ratios : List Int64} (hweights : (weights ratios).sum =
  totalRatio.toInt.toNat)
  (ht : 0 < totalRatio.toInt)
include hweights ht

theorem amount_split (amount : Int64) : amount.toInt = signed amount.toInt
    (LargestRemainder.quotients amount.toInt.natAbs totalRatio.toInt.toNat (weights ratios)).sum +
      signed amount.toInt (LargestRemainder.leftover amount.toInt.natAbs (weights ratios)) := by
  have hle :=
    LargestRemainder.sum_quotients_le amount.toInt.natAbs (show 0 < (weights ratios).sum by omega)
  rw [← signed_add, ← hweights, LargestRemainder.leftover, Nat.add_sub_cancel' hle, signed]
  split <;> omega

theorem leftover_toInt
    (hacc : acc.toInt =
      Int.bmod ((0 : Int64).toInt + ((exactParts amount totalRatio ratios).map Prod.fst).sum)
      (2 ^ 64)) :
    (amount - acc).toInt =
      signed amount.toInt (LargestRemainder.leftover amount.toInt.natAbs (weights ratios)) := by
  have hlo := amount.le_toInt
  have hhi := amount.toInt_lt
  have hsplit := amount_split hweights ht amount
  have hunits : LargestRemainder.leftover amount.toInt.natAbs (weights ratios) ≤
      amount.toInt.natAbs := Nat.sub_le _ _
  rw [map_fst_exactParts, sum_signed] at hacc
  have hzero : (0 : Int64).toInt = 0 := rfl
  rw [Int64.toInt_sub, hacc, hzero, zero_add, Int.sub_bmod_bmod]
  generalize signed amount.toInt (LargestRemainder.quotients _ _ _).sum = q at *
  generalize LargestRemainder.leftover amount.toInt.natAbs (weights ratios) = units at *
  rw [show amount.toInt - q = signed amount.toInt units by omega, signed]
  split <;> exact bmod_eq_self (by omega) (by omega)

theorem leftover_lt_two_pow :
    LargestRemainder.leftover amount.toInt.natAbs (weights ratios) < 2 ^ 63 := by
  have hlo := amount.le_toInt
  have hhi := amount.toInt_lt
  have htop := totalRatio.toInt_lt
  by_cases hmax : amount.toInt.natAbs < 2 ^ 63
  · exact (Nat.sub_le _ _).trans_lt hmax
  · have hlt :=
      LargestRemainder.leftover_lt amount.toInt.natAbs
      (show 0 < (weights ratios).sum by omega) (by omega)
    omega

end Leftover

theorem allocateBy_eq {part : Int64 → Int64 → Except Failure (Int64 × Int64)} {m : Money}
    {ratios : List Int64} {t acc : Int64} {xs : List Money} {rs : List Int64}
    (ht : sumRatios ratios = .ok t)
    (hloop : partLoop (part t) m.currency ratios [] [] 0 = .ok (xs, rs, acc)) :
    allocateBy part m ratios = .ok (distributeLeftover xs rs (m.amount - acc)) := by
  rw [allocateBy, ht]
  show (partLoop (part t) m.currency ratios [] [] 0 >>= _) = _
  rw [hloop]
  rfl

theorem allocateWide_fair (m : Money) {ratios : List Int64} (hnonneg : ∀ r ∈ ratios, 0 ≤ r.toInt)
    (hpos : 0 < total ratios) (hlt : total ratios < 2 ^ 63) :
    ∃ shares, m.allocateWide ratios = .ok shares ∧
      (shares.map fun s => s.amount.toInt).sum = m.amount.toInt ∧
      List.Forall₂ (Fair m.amount.toInt (total ratios) m.currency) ratios shares := by
  obtain ⟨t, ht, hsum⟩ :=
    sumRatiosFrom_ok (show 0 ≤ (0 : Int64).toInt by decide) hnonneg (by simpa using hpos)
    (by simpa using hlt)
  have hsum : t.toInt = total ratios := by simpa using hsum
  have hne : ratios.isEmpty = false := by
    cases ratios with
    | nil => exact absurd hpos (by decide)
    | cons r rest => rfl
  have hratios : sumRatios ratios = .ok t := by rw [sumRatios, hne, ← ht]; rfl
  have htpos : 0 < t.toInt := hsum ▸ hpos
  have hle : ∀ r ∈ ratios, r.toInt ≤ t.toInt := fun r hr => hsum ▸ le_total hnonneg hr
  have hweights : (weights ratios).sum = t.toInt.toNat := by
    have := sum_weights hnonneg
    omega
  obtain ⟨xs, rs, acc, hloop, hgiven, hacc⟩ := partLoop_exact
    (fun r hr => widePart_spec m.amount htpos (hnonneg r hr) (hle r hr)) m.currency
      (signed m.amount.toInt 1) [] [] 0
  have hleft := leftover_toInt hweights htpos hacc
  have hunits :=
    LargestRemainder.leftover_le_countP m.amount.toInt.natAbs
    (show 0 < (weights ratios).sum by omega)
  rw [hweights, ← countP_exactParts] at hunits
  have hdistribute := distributeLeftover_eq xs rs hleft (leftover_lt_two_pow hweights htpos)
  rw [← unit_toInt] at hgiven
  obtain ⟨rs', hrun⟩ := hgiven.run ((Nat.zero_add _).trans_le hunits) fun e he hpos =>
    unit_toInt m.amount ▸ exactParts_fit htpos hle he hpos
  refine ⟨_, allocateBy_eq hratios hloop, ?_, ?_⟩
  · rw [List.nil_append, List.nil_append, hdistribute, hrun.sum, map_fst_exactParts,
      sum_signed, unit_toInt,
      signed_one_mul, Nat.zero_add]
    exact (amount_split hweights htpos m.amount).symm
  · rw [List.nil_append, List.nil_append, hdistribute, ← hsum]
    rw [unit_toInt] at hrun
    exact hrun.fair htpos hnonneg

/-- A success of the 64-bit allocation is one of the 128-bit allocation. -/
theorem allocateWide_of_allocate {m : Money} {ratios : List Int64} {shares : List Money}
    (h : m.allocate ratios = .ok shares) :
    m.allocateWide ratios = .ok shares := by
  rw [Money.allocate, allocateBy] at h
  cases ht : sumRatios ratios with
  | error e =>
    rw [ht] at h
    cases h
  | ok t =>
    rw [ht] at h
    have hfrom : sumRatiosFrom 0 ratios = .ok t := by
      rw [sumRatios] at ht
      split at ht
      · cases ht
      · exact ht
    obtain ⟨hnonneg, hsum, hpos⟩ := of_sumRatiosFrom_ok (show 0 ≤ (0 : Int64).toInt by decide) hfrom
    have hsum : t.toInt = total ratios := by simpa using hsum
    have hmono : ∀ r ∈ ratios, ∀ v, narrowPart m.amount t r = .ok v →
        widePart m.amount t r = .ok v := by
      rintro r hr ⟨share, rem⟩ hv
      obtain ⟨share', rem', hwide, hexact⟩ :=
        widePart_spec m.amount hpos (hnonneg r hr) (hsum ▸ le_total hnonneg hr)
      obtain ⟨rfl, rfl⟩ := (narrowPart_spec hpos (hnonneg r hr) hv).unique hexact
      exact hwide
    cases hloop : partLoop (narrowPart m.amount t) m.currency ratios [] [] 0 with
    | error e =>
      change (partLoop (narrowPart m.amount t) m.currency ratios [] [] 0 >>= _) = _ at h
      rw [hloop] at h
      cases h
    | ok v =>
      obtain ⟨xs, rs, acc⟩ := v
      have hnarrow := allocateBy_eq ht hloop
      rw [allocateBy, ht] at hnarrow
      exact (allocateBy_eq ht (partLoop_mono hmono hloop)).trans (hnarrow.symm.trans h)

/-- Ratios that `sumRatios` accepts. -/
structure Valid (ratios : List Int64) : Prop where
  nonempty : ratios ≠ []
  nonneg : ∀ r ∈ ratios, 0 ≤ r.toInt
  pos : 0 < total ratios
  lt : total ratios < 2 ^ 63

/-- Conservation and quota of `AllocateWide`, and its agreement with `Allocate`. -/
theorem allocation_conserves (m : Money) (ratios : List Int64) :
    (Valid ratios → ∃ shares, m.allocateWide ratios = .ok shares ∧
      (shares.map fun s => s.amount.toInt).sum = m.amount.toInt ∧
      List.Forall₂ (Fair m.amount.toInt (total ratios) m.currency) ratios shares) ∧
    ∀ shares, m.allocate ratios = .ok shares → m.allocateWide ratios = .ok shares :=
  ⟨fun h => allocateWide_fair m h.nonneg h.pos h.lt, fun _ h => allocateWide_of_allocate h⟩

/-- The smallest amount there is, whose absolute value is no `int64`, among three parties. -/
theorem allocation_conserves_min :
    Valid [1, 0, 2] ∧ ∃ shares, Money.allocateWide ⟨minInt64, ⟨"USD", 2⟩⟩ [1, 0, 2] = .ok shares ∧
    (shares.map fun s => s.amount.toInt).sum = -2 ^ 63 := by
  have hvalid : Valid [1, 0, 2] :=
    ⟨List.cons_ne_nil _ _, List.forall_iff_forall_mem.mp (by decide +kernel), by decide +kernel,
    by decide +kernel⟩
  obtain ⟨shares, hok, hsum, -⟩ := (allocation_conserves ⟨minInt64, ⟨"USD", 2⟩⟩ [1, 0, 2]).1 hvalid
  exact ⟨hvalid, shares, hok, hsum⟩

end Foundation.MoneyAllocation
