import Mathlib.Data.List.Basic
import Mathlib.Tactic.Ring
import Mathlib.Tactic.Linarith

/-! A region of bytes and the little-endian words in it: what a write leaves to a later read. -/

namespace Foundation

/-! ### Words -/

/-- The low `width` bytes of `n`, least significant first. -/
def leBytes : ℕ → ℕ → List UInt8
  | 0, _ => []
  | width + 1, n => UInt8.ofNat n :: leBytes width (n / 256)

def leNat : List UInt8 → ℕ
  | [] => 0
  | b :: bs => b.toNat + 256 * leNat bs

@[simp] theorem length_leBytes (width n : ℕ) : (leBytes width n).length = width := by
  induction width generalizing n with
  | zero => rfl
  | succ width ih => simp [leBytes, ih]

@[simp] theorem drop_leBytes {width k : ℕ} (h : width ≤ k) (n : ℕ) :
    (leBytes width n).drop k = [] :=
  List.drop_eq_nil_of_le (by rwa [length_leBytes])

theorem leNat_leBytes (width n : ℕ) : leNat (leBytes width n) = n % 256 ^ width := by
  induction width generalizing n with
  | zero => simp [leBytes, leNat, Nat.mod_one]
  | succ width ih =>
    have hpow : 256 ^ (width + 1) = 256 * 256 ^ width := pow_succ' 256 width
    rw [leBytes, leNat, ih, UInt8.toNat_ofNat', hpow, Nat.mod_mul]

theorem leNat_leBytes_of_lt {width n : ℕ} (h : n < 256 ^ width) : leNat (leBytes width n) = n := by
  rw [leNat_leBytes, Nat.mod_eq_of_lt h]

/-! ### Regions -/

/-- `size` bytes; what `byte` says past them is never looked at. -/
structure Region where
  size : ℕ
  byte : ℕ → UInt8

variable {bs : List UInt8}

namespace Region

variable (m : Region)

def read (off len : ℕ) : List UInt8 := (List.range' off len).map m.byte

/-- The bytes `[off, off + bs.length)` replaced. -/
def write (off : ℕ) (bs : List UInt8) : Region :=
  { m with byte := fun i => if off ≤ i then (bs[i - off]?).getD (m.byte i) else m.byte i }

def word (off width : ℕ) : ℕ := leNat (m.read off width)

@[simp] theorem size_write (off : ℕ) (bs : List UInt8) : (m.write off bs).size = m.size := rfl

@[simp] theorem length_read (off len : ℕ) : (m.read off len).length = len := by simp [read]

theorem byte_write (off : ℕ) (bs : List UInt8) (i : ℕ) :
    (m.write off bs).byte i = if off ≤ i then (bs[i - off]?).getD (m.byte i) else m.byte i := rfl

theorem byte_write_of_outside {off i : ℕ} (h : i < off ∨ off + bs.length ≤ i) :
    (m.write off bs).byte i = m.byte i := by
  rw [byte_write]
  split
  · rw [List.getElem?_eq_none (by omega), Option.getD_none]
  · rfl

theorem read_congr {m m' : Region} {off len : ℕ}
    (h : ∀ i, off ≤ i → i < off + len → m'.byte i = m.byte i) :
    m'.read off len = m.read off len := by
  refine List.map_congr_left fun i hi => ?_
  obtain ⟨h₁, h₂⟩ := List.mem_range'_1.mp hi
  exact h i h₁ h₂

theorem read_write_of_disjoint {off off' len : ℕ} (h : off' + len ≤ off ∨ off + bs.length ≤ off') :
    (m.write off bs).read off' len = m.read off' len :=
  read_congr fun i _ _ => byte_write_of_outside m (by omega)

theorem read_write_inside {off k len : ℕ} (h : k + len ≤ bs.length) :
    (m.write off bs).read (off + k) len = (bs.drop k).take len := by
  apply List.ext_getElem
  · rw [length_read, List.length_take, List.length_drop]
    omega
  · intro i hi _
    rw [length_read] at hi
    have hlt : k + i < bs.length := by omega
    simp only [read, List.getElem_map, List.getElem_range', List.getElem_take, List.getElem_drop]
    simp only [write, if_pos (show off ≤ off + k + 1 * i by omega)]
    rw [show off + k + 1 * i - off = k + i by omega, List.getElem?_eq_getElem hlt, Option.getD_some]

theorem read_write_self (off : ℕ) (bs : List UInt8) : (m.write off bs).read off bs.length = bs := by
  have h : (m.write off bs).read (off + 0) bs.length = (bs.drop 0).take bs.length :=
    m.read_write_inside (by omega)
  simpa using h

theorem word_write_of_disjoint {off off' width : ℕ}
    (h : off' + width ≤ off ∨ off + bs.length ≤ off') :
    (m.write off bs).word off' width = m.word off' width := by
  rw [word, read_write_of_disjoint m h, word]

theorem word_write_self {off width n : ℕ} (h : n < 256 ^ width) :
    (m.write off (leBytes width n)).word off width = n := by
  have hread := m.read_write_self off (leBytes width n)
  rw [length_leBytes] at hread
  rw [word, hread, leNat_leBytes_of_lt h]

end Region

-- Everything about a changed region goes through the lemmas above.
attribute [irreducible] Region.write

end Foundation
