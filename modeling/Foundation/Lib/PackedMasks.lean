import Foundation.Lib.PackedBits

/-! Packed masks computed row by row: word after word, or by raising single bits of a zero mask. -/

namespace Foundation.PackedBits

/-- The words a mask over `n` rows takes. -/
def wordCount (n : ℕ) : ℕ := (n + 63) / 64

/-- The rows from `base` to `stop` that meet `f`, as one word. -/
def packWord (f : ℕ → Bool) (base stop : ℕ) : Word :=
  (List.range' base (stop - base)).foldl (fun w i => if f i then
    w ||| (1 : Word) <<< (i - base) else w) 0

def packed (f : ℕ → Bool) (n : ℕ) : List Word :=
  (List.range (wordCount n)).map fun w => packWord f (w * 64) (min (w * 64 + 64) n)

def raised (f : ℕ → Bool) (n : ℕ) : List Word :=
  (List.range n).foldl (fun ws i => if f i then setBit ws i
    else ws) (List.replicate (wordCount n) 0)

theorem getLsbD_packLoop (f : ℕ → Bool) (base start len j : ℕ) (w : Word)
    (hlen : start + len ≤ base + 64) (hstart : base ≤ start) :
    ((List.range' start len).foldl (fun w i => if f i then w ||| (1 : Word) <<< (i - base)
      else w) w).getLsbD j =
      (w.getLsbD j || (decide (start ≤ base + j ∧ base + j < start + len) && f (base + j))) := by
  induction len generalizing start w with
  | zero => simp
  | succ len ih =>
    rw [List.range'_succ, List.foldl_cons, ih (start + 1) _ (by omega) (by omega)]
    have hbit : (if f start then w ||| (1 : Word) <<< (start - base) else w).getLsbD j =
        (w.getLsbD j || (decide (base + j = start) && f (base + j))) := by
      by_cases hj : base + j = start
      · have hj' : j = start - base := by omega
        split_ifs with hf
        · rw [BitVec.getLsbD_or, getLsbD_one_shift _ _ (by omega)]
          simp [hj', show base + (start - base) = start by omega, hf]
        · simp [hj, hf]
      · have hj' : j ≠ start - base := by omega
        split_ifs with hf
        · rw [BitVec.getLsbD_or, getLsbD_one_shift _ _ (by omega)]
          simp [hj, hj']
        · simp [hj]
    rw [hbit, Bool.or_assoc, ← Bool.and_or_distrib_right]
    congr 2
    rw [← Bool.decide_or]
    exact decide_eq_decide.mpr (by omega)

theorem bitAt_packed (f : ℕ → Bool) (n j : ℕ) : bitAt (packed f n) j = (decide (j < n) && f j) := by
  rw [bitAt_eq, packed, List.getElem?_map]
  by_cases hw : j / 64 < wordCount n
  · rw [List.getElem?_range hw, Option.map_some, Option.map_some, Option.getD_some, packWord,
      getLsbD_packLoop f (j / 64 * 64) (j / 64 * 64) _ (j % 64) 0 (by omega) le_rfl]
    unfold wordCount at hw
    rw [show j / 64 * 64 + j % 64 = j by omega, show (0 : Word).getLsbD (j % 64) = false by simp,
      Bool.false_or]
    congr 1
    exact decide_eq_decide.mpr (by omega)
  · rw [List.getElem?_eq_none (by simpa using hw)]
    unfold wordCount at hw
    simp [show ¬ j < n by omega]

theorem length_setBit (ws : List Word) (i : ℕ) : (setBit ws i).length = ws.length :=
  List.length_modify _ _ _

theorem bitAt_raised (f : ℕ → Bool) (n j : ℕ) : bitAt (raised f n) j = (decide (j < n) && f j) := by
  have hloop : ∀ (k : ℕ) (ws : List Word), k ≤ n → ws.length = wordCount n →
      bitAt ((List.range k).foldl (fun ws i => if f i then setBit ws i else ws) ws) j =
        (bitAt ws j || (decide (j < k) && f j)) ∧
      ((List.range k).foldl (fun ws i => if f i then setBit ws i else ws) ws).length =
        wordCount n := by
    intro k
    induction k with
    | zero =>
      intro ws _ hlen
      simp [hlen]
    | succ k ih =>
      intro ws hk hlen
      obtain ⟨hbit, hlen'⟩ := ih ws (by omega) hlen
      rw [List.range_succ, List.foldl_append, List.foldl_cons, List.foldl_nil]
      split_ifs with hf
      · have hword : k / 64 < wordCount n := by
          unfold wordCount
          omega
        refine ⟨?_, by rw [length_setBit, hlen']⟩
        rw [bitAt_setBit _ _ _ (by rw [hlen']; exact hword), hbit]
        by_cases hjk : j = k
        · subst hjk
          simp [hf]
        · rw [show decide (j < k + 1) = decide (j < k) from decide_eq_decide.mpr (by omega)]
          simp [hjk]
      · refine ⟨?_, hlen'⟩
        rw [hbit]
        by_cases hjk : j = k
        · subst hjk
          simp [hf]
        · rw [show decide (j < k + 1) = decide (j < k) from decide_eq_decide.mpr (by omega)]
  have h := (hloop n (List.replicate (wordCount n) 0) le_rfl (List.length_replicate)).1
  rw [bitAt_replicate, Bool.false_or] at h
  exact h

end Foundation.PackedBits
