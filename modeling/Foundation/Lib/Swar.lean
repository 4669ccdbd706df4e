import Mathlib.Data.Nat.Bitwise
import Foundation.Lib.ByteRegion

/-! Testing all bytes of a word at once. One is subtracted from every byte, and the high bits that
appear are kept where the word had none: each zero byte is marked. A borrow can mark bytes above a
zero byte, but none below the first. -/

namespace Foundation.Swar

/-- A word of `k` bytes with one in each of them. -/
def ones : ℕ → ℕ
  | 0 => 0
  | k + 1 => 1 + 256 * ones k

def zeroBytes (k x : ℕ) : ℕ :=
  (256 ^ k - ones k + x) % 256 ^ k &&& (256 ^ k - 1 - x) &&& 128 * ones k

/-- The lowest bit of `x` is the high bit of the first byte that meets `p`. -/
def Marks (p : UInt8 → Bool) : List UInt8 → ℕ → Prop
  | [], x => x = 0
  | b :: bs, x => if p b then x % 256 = 128 else x % 256 = 0 ∧ Marks p bs (x / 256)

theorem ones_lt (k : ℕ) : ones k < 256 ^ k := by
  induction k with
  | zero => decide
  | succ k ih =>
    rw [ones, pow_succ']
    omega

theorem leNat_lt (bs : List UInt8) : leNat bs < 256 ^ bs.length := by
  induction bs with
  | nil => decide
  | cons b bs ih =>
    have hb := b.toNat_lt
    rw [leNat, List.length_cons, pow_succ']
    omega

/-! ### The low byte and the rest -/

theorem and_low (a b x y : ℕ) (ha : a < 256) (hb : b < 256) :
    (a + 256 * x) &&& (b + 256 * y) = (a &&& b) + 256 * (x &&& y) := by
  have hmod := Nat.and_mod_two_pow (a := a + 256 * x) (b := b + 256 * y) (n := 8)
  have hdiv := Nat.and_div_two_pow (a := a + 256 * x) (b := b + 256 * y) (n := 8)
  rw [show (a + 256 * x) % 2 ^ 8 = a by omega, show (b + 256 * y) % 2 ^ 8 = b by omega] at hmod
  rw [show (a + 256 * x) / 2 ^ 8 = x by omega, show (b + 256 * y) / 2 ^ 8 = y by omega] at hdiv
  omega

theorem xor_low (a b x y : ℕ) (ha : a < 256) (hb : b < 256) :
    (a + 256 * x) ^^^ (b + 256 * y) = (a ^^^ b) + 256 * (x ^^^ y) := by
  have hmod := Nat.xor_mod_two_pow (a := a + 256 * x) (b := b + 256 * y) (n := 8)
  have hdiv := Nat.xor_div_two_pow (a := a + 256 * x) (b := b + 256 * y) (n := 8)
  rw [show (a + 256 * x) % 2 ^ 8 = a by omega, show (b + 256 * y) % 2 ^ 8 = b by omega] at hmod
  rw [show (a + 256 * x) / 2 ^ 8 = x by omega, show (b + 256 * y) / 2 ^ 8 = y by omega] at hdiv
  omega

theorem mod_low (a q m : ℕ) (ha : a < 256) : (a + 256 * q) % (256 * m) = a + 256 * (q % m) := by
  rw [Nat.mod_mul, show (a + 256 * q) % 256 = a by omega, show (a + 256 * q) / 256 = q by omega]

/-- A nonzero low byte lends nothing and is not marked. -/
theorem zeroBytes_of_pos {k b x : ℕ} (hb : 0 < b) (hb' : b < 256) (hx : x < 256 ^ k) :
    zeroBytes (k + 1) (b + 256 * x) = 256 * zeroBytes k x := by
  have hones := ones_lt k
  have hlow : ∀ b < 256, 0 < b → (b - 1) &&& (255 - b) &&& 128 = 0 := by decide +kernel
  have hsub : (256 ^ (k + 1) - ones (k + 1) + (b + 256 * x)) % 256 ^ (k + 1) =
      (b - 1) + 256 * ((256 ^ k - ones k + x) % 256 ^ k) := by
    rw [ones, pow_succ', show 256 * 256 ^ k - (1 + 256 * ones k) + (b + 256 * x) =
      (b - 1) + 256 * (256 ^ k - ones k + x) by omega, mod_low _ _ _ (by omega)]
  have hnot : 256 ^ (k + 1) - 1 - (b + 256 * x) = (255 - b) + 256 * (256 ^ k - 1 - x) := by
    rw [pow_succ']
    omega
  rw [zeroBytes, hsub, hnot, ones, Nat.mul_add, ← Nat.mul_assoc, Nat.mul_comm 128 256,
    Nat.mul_assoc,
    and_low _ _ _ _ (by omega) (by omega),
    and_low _ _ _ _ (Nat.and_lt_two_pow _ (n := 8) (by omega)) (by omega),
    hlow b hb' hb, Nat.zero_add, zeroBytes]

theorem zeroBytes_of_zero {k x : ℕ} (hx : x < 256 ^ k) :
    zeroBytes (k + 1) (256 * x) % 256 = 128 := by
  have hones := ones_lt k
  have hsub : (256 ^ (k + 1) - ones (k + 1) + 256 * x) % 256 ^ (k + 1) =
      255 + 256 * ((256 ^ k - ones k + x - 1) % 256 ^ k) := by
    rw [ones, pow_succ', show 256 * 256 ^ k - (1 + 256 * ones k) + 256 * x =
      255 + 256 * (256 ^ k - ones k + x - 1) by omega, mod_low _ _ _ (by decide)]
  have hnot : 256 ^ (k + 1) - 1 - 256 * x = 255 + 256 * (256 ^ k - 1 - x) := by
    rw [pow_succ']
    omega
  rw [zeroBytes, hsub, hnot, ones, Nat.mul_add, ← Nat.mul_assoc, Nat.mul_comm 128 256,
    Nat.mul_assoc,
    and_low _ _ _ _ (by omega) (by omega), and_low _ _ _ _ (by decide) (by omega)]
  have : (255 &&& 255 &&& 128 * 1 : ℕ) = 128 := by decide
  omega

/-! ### Marks -/

variable {p q : UInt8 → Bool} {bs : List UInt8} {x y : ℕ}

theorem marks_zeroBytes (bs : List UInt8) : Marks (· == 0) bs (zeroBytes bs.length (leNat bs)) := by
  induction bs with
  | nil => rfl
  | cons b bs ih =>
    rw [Marks, List.length_cons, leNat]
    split_ifs with hb
    · obtain rfl := beq_iff_eq.mp hb
      rw [UInt8.toNat_zero, Nat.zero_add]
      exact zeroBytes_of_zero (leNat_lt bs)
    · have hpos : 0 < b.toNat := by
        rw [Nat.pos_iff_ne_zero]
        exact fun h => hb (beq_iff_eq.mpr (UInt8.toNat_inj.mp h))
      rw [zeroBytes_of_pos hpos b.toNat_lt (leNat_lt bs), Nat.mul_mod_right,
        Nat.mul_div_cancel_left _ (by decide)]
      exact ⟨rfl, ih⟩

theorem Marks.of_map {f : UInt8 → UInt8} (h : Marks p (bs.map f) x) :
    Marks (fun b => p (f b)) bs x := by
  induction bs generalizing x with
  | nil => exact h
  | cons b bs ih =>
    rw [List.map_cons, Marks] at h
    rw [Marks]
    split_ifs at h ⊢
    · exact h
    · exact ⟨h.1, ih h.2⟩

theorem leNat_xor (t : UInt8) (bs : List UInt8) :
    leNat bs ^^^ t.toNat * ones bs.length = leNat (bs.map (· ^^^ t)) := by
  induction bs with
  | nil => simp [leNat, ones]
  | cons b bs ih =>
    rw [leNat, List.length_cons, ones, Nat.mul_add, Nat.mul_one, Nat.mul_left_comm,
      xor_low _ _ _ _ b.toNat_lt t.toNat_lt, ih, List.map_cons, leNat, UInt8.toNat_xor]

/-- The bytes equal to `t` are the zero bytes once `t` is taken off all of them. -/
theorem marks_byte (t : UInt8) (bs : List UInt8) :
    Marks (· == t) bs (zeroBytes bs.length (leNat bs ^^^ t.toNat * ones bs.length)) := by
  have h := marks_zeroBytes (bs.map (· ^^^ t))
  rw [List.length_map, ← leNat_xor] at h
  have heq : (fun b : UInt8 => b ^^^ t == 0) = (· == t) := by
    funext b
    rw [Bool.eq_iff_iff, beq_iff_eq, beq_iff_eq, UInt8.xor_eq_zero_iff]
  exact heq ▸ h.of_map

theorem Marks.or (hx : Marks p bs x) (hy : Marks q bs y) :
    Marks (fun b => p b || q b) bs (x ||| y) := by
  induction bs generalizing x y with
  | nil =>
    obtain rfl : x = 0 := hx
    obtain rfl : y = 0 := hy
    exact rfl
  | cons b bs ih =>
    have hmod := Nat.or_mod_two_pow (a := x) (b := y) (n := 8)
    have hdiv := Nat.or_div_two_pow (a := x) (b := y) (n := 8)
    norm_num only at hmod hdiv
    rw [Marks] at hx hy ⊢
    rw [hmod, hdiv]
    by_cases hp : p b = true <;> by_cases hq : q b = true
    · rw [if_pos hp] at hx
      rw [if_pos hq] at hy
      rw [if_pos (by simp [hp]), hx, hy]
      decide
    · rw [if_pos hp] at hx
      rw [if_neg hq] at hy
      rw [if_pos (by simp [hp]), hx, hy.1]
      decide
    · rw [if_neg hp] at hx
      rw [if_pos hq] at hy
      rw [if_pos (by simp [hq]), hx.1, hy]
      decide
    · rw [if_neg hp] at hx
      rw [if_neg hq] at hy
      rw [if_neg (by simp [hp, hq]), hx.1, hy.1]
      exact ⟨rfl, ih hx.2 hy.2⟩

theorem Marks.eq_zero (h : Marks p bs x) (hnone : bs.findIdx? p = none) : x = 0 := by
  induction bs generalizing x with
  | nil => exact h
  | cons b bs ih =>
    rw [List.findIdx?_cons] at hnone
    split_ifs at hnone with hb
    rw [Marks, if_neg hb] at h
    have hrest := ih h.2 (Option.map_eq_none_iff.mp hnone)
    omega

theorem Marks.lowest {j : ℕ} (h : Marks p bs x) (hj : bs.findIdx? p = some j) :
    x.testBit (8 * j + 7) = true ∧ ∀ i < 8 * j + 7, x.testBit i = false := by
  induction bs generalizing x j with
  | nil => cases hj
  | cons b bs ih =>
    rw [List.findIdx?_cons] at hj
    rw [Marks] at h
    have hlow (i : ℕ) (hi : i < 8) : x.testBit i = (x % 256).testBit i := by
      rw [show 256 = 2 ^ 8 from rfl, Nat.testBit_mod_two_pow, decide_eq_true hi, Bool.true_and]
    split_ifs at hj h with hb
    · obtain rfl := Option.some.inj hj
      refine ⟨by rw [hlow 7 (by decide), h]; decide, fun i hi => ?_⟩
      rw [hlow i (by omega), h]
      revert i
      decide
    · obtain ⟨j', hj', rfl⟩ := Option.map_eq_some_iff.mp hj
      obtain ⟨hset, hclear⟩ := ih h.2 hj'
      have hrest (i : ℕ) : (x / 256).testBit i = x.testBit (i + 8) :=
        Nat.testBit_div_two_pow (n := 8) x i
      refine ⟨by rw [← hset, hrest]; congr 1, fun i hi => ?_⟩
      by_cases hlt : i < 8
      · rw [hlow i hlt, h.1, Nat.zero_testBit]
      · have hc := hclear (i - 8) (by omega)
        rwa [hrest, Nat.sub_add_cancel (by omega)] at hc

end Foundation.Swar
