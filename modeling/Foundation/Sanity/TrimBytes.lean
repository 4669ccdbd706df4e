import Foundation.Spec.Record

/-! Trimming a byte string twice is trimming it once: what the left pass leaves begins with no white
space, and the right pass only shortens it. -/

namespace Foundation

theorem spaceEncodings_ne_nil {e : List UInt8} (h : e ∈ spaceEncodings) : 0 < e.length := by
  revert e
  decide

theorem trimLeftBytes_done {fuel : ℕ} {l : List UInt8} (h : l.length ≤ fuel) :
    spaceEncodings.find? (·.isPrefixOf (trimLeftBytes fuel l)) = none := by
  induction fuel generalizing l with
  | zero =>
    obtain rfl : l = [] := List.eq_nil_of_length_eq_zero (by omega)
    decide
  | succ fuel ih =>
    unfold trimLeftBytes
    cases hf : spaceEncodings.find? (·.isPrefixOf l) with
    | none => exact hf
    | some e =>
      have hpos := spaceEncodings_ne_nil (List.mem_of_find?_eq_some hf)
      exact ih (by rw [List.length_drop]; omega)

variable {l : List UInt8}

theorem trimRightBytes_done {fuel : ℕ} (h : l.length ≤ fuel) :
    spaceEncodings.find? (·.isSuffixOf (trimRightBytes fuel l)) = none := by
  induction fuel generalizing l with
  | zero =>
    obtain rfl : l = [] := List.eq_nil_of_length_eq_zero (by omega)
    decide
  | succ fuel ih =>
    unfold trimRightBytes
    cases hf : spaceEncodings.find? (·.isSuffixOf l) with
    | none => exact hf
    | some e =>
      have hpos := spaceEncodings_ne_nil (List.mem_of_find?_eq_some hf)
      exact ih (by rw [List.length_take]; omega)

theorem trimLeftBytes_of_none (h : spaceEncodings.find? (·.isPrefixOf l) = none) (fuel : ℕ) :
    trimLeftBytes fuel l = l := by
  cases fuel with
  | zero => rfl
  | succ fuel => rw [trimLeftBytes, h]

theorem trimRightBytes_of_none (h : spaceEncodings.find? (·.isSuffixOf l) = none) (fuel : ℕ) :
    trimRightBytes fuel l = l := by
  cases fuel with
  | zero => rfl
  | succ fuel => rw [trimRightBytes, h]

theorem trimRightBytes_take (fuel : ℕ) (l : List UInt8) : trimRightBytes fuel l <+: l := by
  induction fuel generalizing l with
  | zero => exact List.prefix_refl l
  | succ fuel ih =>
    unfold trimRightBytes
    cases spaceEncodings.find? (·.isSuffixOf l) with
    | none => exact List.prefix_refl l
    | some e => exact (ih _).trans (List.take_prefix _ _)

theorem length_trimLeftBytes_le (fuel : ℕ) (l : List UInt8) :
    (trimLeftBytes fuel l).length ≤ l.length := by
  induction fuel generalizing l with
  | zero => exact le_rfl
  | succ fuel ih =>
    unfold trimLeftBytes
    cases spaceEncodings.find? (·.isPrefixOf l) with
    | none => exact le_rfl
    | some e => exact (ih _).trans (by rw [List.length_drop]; omega)

theorem trimBytes_trimBytes (l : List UInt8) : trimBytes (trimBytes l) = trimBytes l := by
  have hleft : spaceEncodings.find? (·.isPrefixOf (trimBytes l)) = none := by
    have hdone := @trimLeftBytes_done l.length l le_rfl
    rw [List.find?_eq_none] at hdone ⊢
    intro e he hpre
    refine hdone e he (List.isPrefixOf_iff_prefix.mpr ?_)
    exact (List.isPrefixOf_iff_prefix.mp hpre).trans (trimRightBytes_take _ _)
  have hright : spaceEncodings.find? (·.isSuffixOf (trimBytes l)) = none :=
    trimRightBytes_done (length_trimLeftBytes_le _ _)
  conv_lhs => rw [trimBytes, trimLeftBytes_of_none hleft, trimRightBytes_of_none hright]

end Foundation
