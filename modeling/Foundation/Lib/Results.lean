import Mathlib.Data.List.Forall2
import Mathlib.Tactic

/-! Results that are a value or an error: when a chain of them is a value, and what its parts then
are. -/

namespace Foundation

variable {ε α β : Type}

variable {x : Except ε α} {f : α → Except ε β}

theorem except_bind_eq_ok {r : β} (h : x >>= f = .ok r) :
    ∃ a, x = .ok a ∧ f a = .ok r := by
  cases x with
  | error e => cases h
  | ok a => exact ⟨a, rfl, h⟩

theorem except_bind_eq_error {e : ε} (h : x >>= f = .error e) :
    x = .error e ∨ ∃ a, x = .ok a ∧ f a = .error e := by
  cases x with
  | error e' => exact .inl (by cases h; rfl)
  | ok a => exact .inr ⟨a, rfl, h⟩

theorem toOption_bind (x : Except ε α) (f : α → Except ε β) :
    (x >>= f).toOption = x.toOption.bind fun a => (f a).toOption := by
  cases x <;> rfl

theorem toOption_map (f : α → β) (x : Except ε α) : (x.map f).toOption = x.toOption.map f := by
  cases x <;> rfl

theorem toOption_eq_some {a : α} : x.toOption = some a ↔ x = .ok a := by
  cases x with
  | error e => exact ⟨(by cases ·), (by cases ·)⟩
  | ok b =>
    exact ⟨fun h => congrArg Except.ok (Option.some.inj h),
      fun h => congrArg some (Except.ok.inj h)⟩

theorem forall_ok_iff {a : α} {P : α → Prop} : (∀ v, (.ok a : Except ε α) = .ok v → P v) ↔ P a := by
  constructor
  · intro h
    exact h a rfl
  · intro h v hv
    obtain rfl := Except.ok.inj hv
    exact h

theorem forall₂_of_mapM {l : List α} {out : List β} (h : l.mapM f = .ok out) :
    List.Forall₂ (fun a b => f a = .ok b) l out := by
  induction l generalizing out with
  | nil =>
    rw [List.mapM_nil] at h
    obtain rfl := Except.ok.inj h
    exact .nil
  | cons a l ih =>
    rw [List.mapM_cons] at h
    obtain ⟨b, ha, h⟩ := except_bind_eq_ok h
    obtain ⟨bs, hl, h⟩ := except_bind_eq_ok h
    obtain rfl := Except.ok.inj h
    exact .cons ha (ih hl)

end Foundation
