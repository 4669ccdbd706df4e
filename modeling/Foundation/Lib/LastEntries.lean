import Mathlib.Data.List.DropRight
import Mathlib.Data.List.Nodup
import Mathlib.Data.Finset.Card

/-! The last `n` entries of a list, as a bounded queue keeps them: what is appended stays,
what falls off is the front. -/

namespace Foundation.LastEntries

variable {α : Type}

theorem take_append_rtake (l : List α) (n : ℕ) : l.take (l.length - n) ++ l.rtake n = l :=
  List.take_append_drop _ _

variable {l : List α} {n : ℕ}

theorem rtake_of_length_le (h : l.length ≤ n) : l.rtake n = l := by
  rw [List.rtake, Nat.sub_eq_zero_of_le h, List.drop_zero]

theorem length_rtake_le (l : List α) (n : ℕ) : (l.rtake n).length ≤ n := by
  rw [List.rtake, List.length_drop]
  omega

theorem rtake_append {a b : List α} (h : n ≤ b.length) : (a ++ b).rtake n = b.rtake n := by
  rw [List.rtake, List.rtake, List.length_append, List.drop_append,
    List.drop_eq_nil_of_le (by omega), List.nil_append]
  congr 1
  omega

theorem rtake_rtake_append (l : List α) (n : ℕ) (x : α) :
    (l.rtake n ++ [x]).rtake n = (l ++ [x]).rtake n := by
  rcases Nat.le_total l.length n with h | h
  · rw [rtake_of_length_le h]
  · have hsplit : l ++ [x] = l.take (l.length - n) ++ (l.rtake n ++ [x]) := by
      rw [← List.append_assoc, take_append_rtake]
    have hlen : n ≤ (l.rtake n ++ [x]).length := by
      rw [List.length_append, List.rtake, List.length_drop]
      omega
    rw [hsplit]
    exact (rtake_append hlen).symm

theorem mem_rtake_iff (h : l.Nodup) (n : ℕ) (x : α) :
    x ∈ l.rtake n ↔ x ∈ l ∧ x ∉ l.take (l.length - n) := by
  have hsplit := take_append_rtake l n
  have hnodup := h
  rw [← hsplit, List.nodup_append] at hnodup
  constructor
  · intro hx
    refine ⟨List.mem_of_mem_drop hx, fun htake => hnodup.2.2 x htake x hx rfl⟩
  · rintro ⟨hx, hnot⟩
    rw [← hsplit] at hx
    exact (List.mem_append.mp hx).resolve_left hnot

theorem nodup_rtake (h : l.Nodup) (n : ℕ) : (l.rtake n).Nodup := h.sublist (List.drop_sublist _ _)

/-- An entry with fewer than `n` entries behind it is kept, with what is behind it. -/
theorem exists_rtake_cons (older : List α) (x : α) {newer : List α} {n : ℕ} (h : newer.length < n) :
    ∃ kept, (older ++ x :: newer).rtake n = kept ++ x :: newer := by
  refine ⟨older.drop (older.length + (newer.length + 1) - n), ?_⟩
  rw [List.rtake, List.length_append, List.length_cons, List.drop_append]
  congr 1
  have hzero : older.length + (newer.length + 1) - n - older.length = 0 := by omega
  rw [hzero, List.drop_zero]

variable [DecidableEq α]

/-- Removing an entry that has already fallen off changes nothing. -/
theorem rtake_filter_ne {x : α} (h : x ∉ l.rtake n) : (l.filter (· ≠ x)).rtake n = l.rtake n := by
  have hkeep : (l.rtake n).filter (· ≠ x) = l.rtake n :=
    List.filter_eq_self.mpr fun y hy => decide_eq_true fun heq => h (heq ▸ hy)
  have hsplit : l.filter (· ≠ x) = (l.take (l.length - n)).filter (· ≠ x) ++ l.rtake n := by
    conv_lhs => rw [← take_append_rtake l n, List.filter_append, hkeep]
  rcases Nat.le_total l.length n with hle | hle
  · rw [hsplit, Nat.sub_eq_zero_of_le hle, List.take_zero, List.filter_nil, List.nil_append,
      rtake_of_length_le
      (length_rtake_le l n)]
  · have hlen : (l.rtake n).length = n := by
      rw [List.rtake, List.length_drop]
      omega
    rw [hsplit, rtake_append hlen.ge, rtake_of_length_le hlen.le]

end Foundation.LastEntries
