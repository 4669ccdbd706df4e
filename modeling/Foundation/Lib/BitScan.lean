import Mathlib.Data.Finset.Sort
import Foundation.Lib.PackedBits

/-! Walking the set bits of packed words upwards: the lowest bit of a word is taken and cleared
until none is left. -/

namespace Foundation.PackedBits

def lowestBit (w : Word) : ℕ := ((List.range 64).find? fun i => w.getLsbD i).getD 64

def dropLowest (w : Word) : Word := w &&& (w - 1)

variable {w : Word} {ws : List Word}

theorem toNat_sub_one (h : w ≠ 0) : (w - 1).toNat = w.toNat - 1 ∧ 0 < w.toNat := by
  have hlt := w.isLt
  have hne : w.toNat ≠ 0 := fun h0 => h (BitVec.eq_of_toNat_eq (by simpa using h0))
  rw [BitVec.toNat_sub, show (1 : Word).toNat = 1 from rfl]
  omega

theorem toNat_dropLowest_lt (h : w ≠ 0) : (dropLowest w).toNat < w.toNat := by
  obtain ⟨hsub, hpos⟩ := toNat_sub_one h
  have hle : (dropLowest w).toNat ≤ (w - 1).toNat := by
    rw [dropLowest, BitVec.toNat_and]
    exact Nat.and_le_right
  omega

/-- Taking one off a number turns over the bits up to the lowest one, and leaves those above. -/
theorem testBit_sub_one {x : ℕ} (h : x ≠ 0) :
    ∃ t, x.testBit t = true ∧ (∀ i < t, x.testBit i = false) ∧
    (x - 1).testBit t = false ∧ ∀ i, t < i → (x - 1).testBit i = x.testBit i := by
  obtain ⟨t, u, ⟨v, rfl⟩, rfl⟩ := Nat.exists_eq_two_pow_mul_odd h
  have hpos := Nat.two_pow_pos t
  have hx (i : ℕ) : (2 ^ t * (2 * v + 1)).testBit i =
      (decide (t ≤ i) && (2 * v + 1).testBit (i - t)) :=
    Nat.testBit_two_pow_mul
  have hsub : 2 ^ t * (2 * v + 1) - 1 = 2 ^ t * (2 * v) + (2 ^ t - 1) := by
    rw [Nat.mul_add, Nat.mul_one]
    omega
  have hx' (i : ℕ) : (2 ^ t * (2 * v + 1) - 1).testBit i =
      if i < t then (2 ^ t - 1).testBit i else (2 * v).testBit (i - t) := by
    rw [hsub, Nat.testBit_two_pow_mul_add _ (by omega)]
  refine ⟨t, by simp [hx], fun i hi => by simp [hx, hi], by simp [hx'], fun i hi => ?_⟩
  obtain ⟨k, rfl⟩ : ∃ k, i = t + (k + 1) := ⟨i - t - 1, by omega⟩
  rw [hx, hx', if_neg (by omega), decide_eq_true (by omega), Bool.true_and, Nat.add_sub_cancel_left,
    Nat.testBit_succ, Nat.testBit_succ]
  congr 1
  omega

theorem lowestBit_eq {t : ℕ} (hset : w.getLsbD t = true) (hclear : ∀ i < t, w.getLsbD i = false) :
    lowestBit w = t := by
  have hfind : (List.range 64).find? (fun i => w.getLsbD i) = some t := by
    refine List.find?_range_eq_some.mpr ⟨hset, List.mem_range.mpr (BitVec.lt_of_getLsbD hset),
      fun j hj => ?_⟩
    simp [hclear j hj]
  rw [lowestBit, hfind, Option.getD_some]

theorem lowestBit_spec (h : w ≠ 0) :
    w.getLsbD (lowestBit w) = true ∧ (∀ i < lowestBit w, w.getLsbD i = false) ∧
    ∀ i, (dropLowest w).getLsbD i = (w.getLsbD i && decide (lowestBit w < i)) := by
  obtain ⟨hsub, hpos⟩ := toNat_sub_one h
  obtain ⟨t, hset, hbelow, hat, habove⟩ := testBit_sub_one hpos.ne'
  obtain rfl := lowestBit_eq (w := w) hset hbelow
  refine ⟨hset, hbelow, fun i => ?_⟩
  rw [dropLowest, BitVec.getLsbD_and]
  have hbit : (w - 1).getLsbD i = (w.toNat - 1).testBit i := by rw [BitVec.getLsbD, hsub]
  rw [hbit]
  rcases lt_trichotomy i (lowestBit w) with hlt | rfl | hlt
  · rw [show w.getLsbD i = false from hbelow i hlt, Bool.false_and, Bool.false_and]
  · rw [hat, decide_eq_false (lt_irrefl _)]
  · rw [habove i hlt, decide_eq_true hlt, Bool.and_true]
    exact Bool.and_self _

/-! ### The positions of a word -/

theorem mem_wordBits {i : ℕ} : i ∈ wordBits w ↔ w.getLsbD i = true := by
  rw [wordBits, List.mem_filter, List.mem_range]
  exact and_iff_right_of_imp BitVec.lt_of_getLsbD

theorem pairwise_wordBits (w : Word) : (wordBits w).Pairwise (· < ·) :=
  List.pairwise_lt_range.filter _

theorem wordBits_zero : wordBits 0 = [] := by
  rw [List.eq_nil_iff_forall_not_mem]
  intro i hi
  simp [mem_wordBits] at hi

theorem wordBits_eq_cons (h : w ≠ 0) : wordBits w = lowestBit w :: wordBits (dropLowest w) := by
  obtain ⟨hset, hbelow, hdrop⟩ := lowestBit_spec h
  refine (pairwise_wordBits w).eq_of_mem_iff (List.pairwise_cons.mpr ⟨fun i hi => ?_,
    pairwise_wordBits _⟩) fun i => ?_
  · rw [mem_wordBits, hdrop, Bool.and_eq_true] at hi
    exact of_decide_eq_true hi.2
  · rw [List.mem_cons, mem_wordBits, mem_wordBits, hdrop]
    rcases lt_trichotomy i (lowestBit w) with hlt | rfl | hlt
    · simp [hbelow i hlt, hlt.ne]
    · simp [hset]
    · simp [hlt, hlt.ne']

/-! ### The positions of all words -/

theorem bitAt_cons (i : ℕ) :
    bitAt (w :: ws) i = if i < 64 then w.getLsbD i else bitAt ws (i - 64) := by
  unfold bitAt
  split_ifs with h
  · rw [Nat.div_eq_of_lt h, Nat.mod_eq_of_lt h, List.getD_cons_zero]
  · rw [show i / 64 = (i - 64) / 64 + 1 by omega, List.getD_cons_succ,
      show (i - 64) % 64 = i % 64 by omega]

theorem mem_positionsFrom (base i : ℕ) :
    i ∈ positionsFrom base ws ↔ base ≤ i ∧ bitAt ws (i - base) = true := by
  induction ws generalizing base with
  | nil => simp [positionsFrom, bitAt]
  | cons w ws ih =>
    simp only [positionsFrom, List.mem_append, List.mem_map, mem_wordBits, ih, bitAt_cons]
    constructor
    · rintro (⟨j, hj, rfl⟩ | ⟨hle, hbit⟩)
      · have hlt := BitVec.lt_of_getLsbD hj
        simp [hlt, hj]
      · refine ⟨by omega, ?_⟩
        rw [if_neg (by omega), Nat.sub_sub]
        exact hbit
    · rintro ⟨hle, hbit⟩
      split_ifs at hbit with hlt
      · exact .inl ⟨i - base, hbit, by omega⟩
      · rw [Nat.sub_sub] at hbit
        exact .inr ⟨by omega, hbit⟩

theorem pairwise_positionsFrom (base : ℕ) : (positionsFrom base ws).Pairwise (· < ·) := by
  induction ws generalizing base with
  | nil => exact List.Pairwise.nil
  | cons w ws ih =>
    rw [positionsFrom, List.pairwise_append]
    refine ⟨(pairwise_wordBits w).map _ fun a b hab => Nat.add_lt_add_left hab base, ih _,
      fun a ha b hb => ?_⟩
    obtain ⟨j, hj, rfl⟩ := List.mem_map.mp ha
    have hlt := BitVec.lt_of_getLsbD (mem_wordBits.mp hj)
    have hle := ((mem_positionsFrom _ _).mp hb).1
    omega

theorem length_positionsFrom (base : ℕ) : (positionsFrom base ws).length = popcountWords ws := by
  induction ws generalizing base with
  | nil => rfl
  | cons w ws ih =>
    rw [positionsFrom, List.length_append, List.length_map, ih]
    rfl

/-- The positions are the members of the set that the words stand for, in order. -/
theorem positions_eq_sort {S : Finset ℕ} (h : ∀ i, bitAt ws i = true ↔ i ∈ S) :
    positions ws = S.sort (· ≤ ·) := by
  refine (pairwise_positionsFrom 0).eq_of_mem_iff S.sortedLT_sort.pairwise fun i => ?_
  rw [mem_positionsFrom, Nat.sub_zero, h, Finset.mem_sort]
  exact and_iff_right (Nat.zero_le i)

theorem popcountWords_eq_card {S : Finset ℕ} (h : ∀ i, bitAt ws i = true ↔ i ∈ S) :
    popcountWords ws = S.card := by
  rw [← length_positionsFrom 0]
  change (positions ws).length = S.card
  rw [positions_eq_sort h, Finset.length_sort]

end Foundation.PackedBits
