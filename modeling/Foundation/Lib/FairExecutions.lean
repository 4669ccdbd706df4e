import Mathlib.Algebra.Group.Nat.Defs
import Mathlib.Order.Lattice

/-! Infinite runs of a system whose moves are made by threads, and what a fair run must come to. A
run may rest at any moment; it is fair when no thread that stays able to move is left standing
forever. -/

namespace Foundation

variable {S E T : Type*} {step : S → E → Option S}

/-- The states and moves of a run; where there is no event, nothing moves. -/
structure Execution (step : S → E → Option S) where
  state : ℕ → S
  event : ℕ → Option E
  rest : ∀ k, event k = none → state (k + 1) = state k
  move : ∀ k e, event k = some e → step (state k) e = some (state (k + 1))

namespace Execution

/-- Every move of the run is made in a state that `C` allows it in. -/
def Along (r : Execution step) (C : S → E → Prop) : Prop :=
  ∀ k e, r.event k = some e → C (r.state k) e

/-- `thread` names the thread that makes a move; a move from outside has none. -/
def Fair (r : Execution step) (thread : E → Option T) (active : S → T → Prop) : Prop :=
  ∀ t k, (∀ j, k ≤ j → active (r.state j) t) →
    ∃ j, k ≤ j ∧ ∃ e, r.event j = some e ∧ thread e = some t

def LeadsTo (r : Execution step) (P Q : S → Prop) : Prop :=
  ∀ k, P (r.state k) → ∃ j, k ≤ j ∧ Q (r.state j)

variable {r : Execution step} {C : S → E → Prop} {P Q R : S → Prop}
  {thread : E → Option T} {active : S → T → Prop}

theorem invariant (hC : r.Along C) (h₀ : P (r.state 0))
    (hstep : ∀ s e s', C s e → step s e = some s' → P s → P s') (k : ℕ) : P (r.state k) := by
  induction k with
  | zero => exact h₀
  | succ k ih =>
    cases he : r.event k with
    | none => rw [r.rest k he]; exact ih
    | some e => exact hstep _ e _ (hC k e he) (r.move k e he) ih

theorem LeadsTo.trans (h₁ : r.LeadsTo P Q) (h₂ : r.LeadsTo Q R) : r.LeadsTo P R := by
  intro k hk
  obtain ⟨j, hj, hQ⟩ := h₁ k hk
  obtain ⟨i, hi, hR⟩ := h₂ j hQ
  exact ⟨i, hj.trans hi, hR⟩

theorem LeadsTo.of_now (h : ∀ k, P (r.state k) → Q (r.state k)) : r.LeadsTo P Q :=
  fun k hk => ⟨k, le_refl k, h k hk⟩

theorem LeadsTo.or (h₁ : r.LeadsTo P R) (h₂ : r.LeadsTo Q R) :
    r.LeadsTo (fun s => P s ∨ Q s) R := by
  intro k hk
  exact hk.elim (h₁ k) (h₂ k)

/-- While `P` holds the thread `t` can move. Its moves lower `m` or reach `Q`; the others do not
raise `m`. -/
theorem Fair.leadsTo (hf : r.Fair thread active) (t : T) (m : S → ℕ)
    (hact : ∀ k, P (r.state k) → active (r.state k) t)
    (hstep : ∀ k e, P (r.state k) → r.event k = some e → Q (r.state (k + 1)) ∨
      P (r.state (k + 1)) ∧ (m (r.state (k + 1)) < m (r.state k) ∨
        m (r.state (k + 1)) = m (r.state k) ∧ thread e ≠ some t)) :
    r.LeadsTo P Q := by
  intro k hk
  induction hn : m (r.state k) using Nat.strong_induction_on generalizing k with
  | _ n ih =>
    by_contra hno
    -- with `Q` out of reach and no smaller `m` to come, nothing changes any more
    have hstay : ∀ d, P (r.state (k + d)) ∧ m (r.state (k + d)) = n := by
      intro d
      induction d with
      | zero => exact ⟨hk, hn⟩
      | succ d ihd =>
        cases he : r.event (k + d) with
        | none =>
          have hsame : r.state (k + (d + 1)) = r.state (k + d) := r.rest _ he
          rw [hsame]
          exact ihd
        | some e =>
          rcases hstep _ e ihd.1 he with hQ | ⟨hP, hlt | ⟨heq, -⟩⟩
          · exact absurd ⟨_, by omega, hQ⟩ hno
          · obtain ⟨j, hj, hQ⟩ := ih _ (hlt.trans_eq ihd.2) _ hP rfl
            exact absurd ⟨j, by omega, hQ⟩ hno
          · exact ⟨hP, heq.trans ihd.2⟩
    have hstay' : ∀ j, k ≤ j → P (r.state j) ∧ m (r.state j) = n := by
      intro j hj
      obtain ⟨d, rfl⟩ := Nat.exists_eq_add_of_le hj
      exact hstay d
    obtain ⟨j, hj, e, he, ht⟩ := hf t k (fun j hj => hact j (hstay' j hj).1)
    rcases hstep j e (hstay' j hj).1 he with hQ | ⟨-, hlt | ⟨-, hne⟩⟩
    · exact hno ⟨j + 1, by omega, hQ⟩
    · have h₁ := (hstay' j hj).2
      have h₂ := (hstay' (j + 1) (by omega)).2
      omega
    · exact hne ht

theorem Fair.leadsTo_next (hf : r.Fair thread active) (t : T)
    (hact : ∀ k, P (r.state k) → active (r.state k) t)
    (hother : ∀ k e, P (r.state k) → r.event k = some e → thread e ≠ some t →
      P (r.state (k + 1)) ∨ Q (r.state (k + 1)))
    (hown : ∀ k e, P (r.state k) → r.event k = some e → thread e = some t → Q (r.state (k + 1))) :
    r.LeadsTo P Q := by
  classical
  refine hf.leadsTo t (fun _ => 0) hact fun k e hP he => ?_
  by_cases ht : thread e = some t
  · exact .inl (hown k e hP he ht)
  · exact (hother k e hP he ht).elim (fun h => .inr ⟨h, .inr ⟨rfl, ht⟩⟩) .inl

theorem foldlM_take {s : S} {es : List E} (h : (es.foldlM step s).isSome = true) (k : ℕ) :
    ∃ t, (es.take k).foldlM step s = some t := by
  rw [← List.take_append_drop k es, List.foldlM_append] at h
  cases ht : (es.take k).foldlM step s with
  | none => rw [ht] at h; cases h
  | some t => exact ⟨t, rfl⟩

/-- The run that makes the moves of a list and then rests. -/
def ofList (s : S) (es : List E) (h : (es.foldlM step s).isSome = true) : Execution step where
  state k := ((es.take k).foldlM step s).getD s
  event k := es[k]?
  rest k hk := by rw [List.take_add_one, hk]; simp
  move k e he := by
    obtain ⟨t, ht⟩ := foldlM_take h k
    obtain ⟨t', ht'⟩ := foldlM_take h (k + 1)
    rw [ht, ht']
    rw [List.take_add_one, he, List.foldlM_append, ht] at ht'
    simpa using ht'

section ofList
variable {s : S} {es : List E} {h : (es.foldlM step s).isSome = true}

theorem ofList_state_end {k : ℕ} (hk : es.length ≤ k) :
    (ofList s es h).state k = (ofList s es h).state es.length := by
  simp [ofList, List.take_of_length_le hk]

theorem ofList_along (hC : ∀ k < es.length, ∀ e ∈ es[k]?, C ((ofList s es h).state k) e) :
    (ofList s es h).Along C := by
  intro k e he
  obtain ⟨hlt, -⟩ := List.getElem?_eq_some_iff.mp he
  exact hC k hlt e he

theorem ofList_fair (hrest : ∀ t, ¬ active ((ofList s es h).state es.length) t) :
    (ofList s es h).Fair thread active := by
  intro t k hk
  have := hk (max k es.length) (le_max_left _ _)
  rw [ofList_state_end (le_max_right _ _)] at this
  exact absurd this (hrest t)

end ofList

end Execution

end Foundation
