import Mathlib.Tactic

/-! Bit vectors packed into 64-bit words: bit `i` is bit `i % 64` of word `i / 64`. -/

namespace Foundation.PackedBits

abbrev Word := BitVec 64

def bitAt (ws : List Word) (i : ℕ) : Bool := (ws.getD (i / 64) 0).getLsbD (i % 64)

def setBit (ws : List Word) (i : ℕ) : List Word :=
  ws.modify (i / 64) (· ||| (1 : Word) <<< (i % 64))

def clearBit (ws : List Word) (i : ℕ) : List Word :=
  ws.modify (i / 64) (· &&& ~~~((1 : Word) <<< (i % 64)))

/-- Word-wise intersection; words the source does not have are cleared. -/
def andWords (ws vs : List Word) : List Word :=
  List.zipWith (· &&& ·) ws vs ++ List.replicate (ws.length - vs.length) 0

/-- The positions of the set bits of a word, ascending. -/
def wordBits (w : Word) : List ℕ := (List.range 64).filter fun i => w.getLsbD i

def positionsFrom (base : ℕ) : List Word → List ℕ
  | [] => []
  | w :: rest => (wordBits w).map (base + ·) ++ positionsFrom (base + 64) rest

def positions (ws : List Word) : List ℕ := positionsFrom 0 ws

def popcountWords (ws : List Word) : ℕ := (ws.map fun w => (wordBits w).length).sum

theorem bitAt_eq (ws : List Word) (i : ℕ) :
    bitAt ws i = ((ws[i / 64]?).map (·.getLsbD (i % 64))).getD false := by
  unfold bitAt
  rw [List.getD_eq_getElem?_getD]
  cases ws[i / 64]? <;> simp

theorem getLsbD_one_shift (i j : ℕ) (hi : i < 64) :
    ((1 : Word) <<< i).getLsbD j = decide (j = i) := by
  have h1 : (1 : Word).getLsbD (j - i) = decide (j - i = 0) := by
    rw [show (1 : Word) = BitVec.ofNat 64 1 from rfl, BitVec.getLsbD_one]
    simp
  rw [BitVec.getLsbD_shiftLeft, h1]
  by_cases h : j = i
  · simp [h, hi]
  · by_cases hlt : j < i
    · simp [hlt, h]
    · have : j - i ≠ 0 := by omega
      simp [h, this]

theorem bitAt_setBit (ws : List Word) (i j : ℕ) (h : i / 64 < ws.length) :
    bitAt (setBit ws i) j = (decide (j = i) || bitAt ws j) := by
  rw [bitAt_eq, bitAt_eq, setBit, List.getElem?_modify]
  by_cases hw : i / 64 = j / 64
  · rw [← hw, List.getElem?_eq_getElem h]
    have hj : (j = i) = (j % 64 = i % 64) := by apply propext; omega
    simp only [if_true, Option.map_eq_map, Option.map_some, Option.getD_some, BitVec.getLsbD_or]
    rw [getLsbD_one_shift _ _ (by omega), Bool.or_comm]
    simp only [hj]
  · have hj : j ≠ i := fun h' => hw (by rw [h'])
    simp [hw, hj]

theorem bitAt_append_zeros (ws : List Word) (m j : ℕ) :
    bitAt (ws ++ List.replicate m 0) j = bitAt ws j := by
  rw [bitAt_eq, bitAt_eq]
  by_cases h : j / 64 < ws.length
  · rw [List.getElem?_append_left h]
  · rw [List.getElem?_append_right (by omega),
      List.getElem?_eq_none (show ws.length ≤ j / 64 by omega),
      List.getElem?_replicate]
    split_ifs <;> simp

theorem bitAt_replicate (m j : ℕ) : bitAt (List.replicate m 0) j = false := by
  have h := bitAt_append_zeros [] m j
  simpa [bitAt_eq] using h

theorem bitAt_andWords (ws vs : List Word) (j : ℕ) :
    bitAt (andWords ws vs) j = (bitAt ws j && bitAt vs j) := by
  rw [andWords, bitAt_append_zeros, bitAt_eq, bitAt_eq, bitAt_eq, List.getElem?_zipWith]
  cases ws[j / 64]? <;> cases vs[j / 64]? <;> simp

end Foundation.PackedBits
