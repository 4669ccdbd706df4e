import Mathlib.Order.Lattice
import Mathlib.Data.List.Basic

/-! One pass of neighbour exchanges from the back of a list to its front. Over a list that is sorted
except for its last entry, it moves that entry to its place: behind all that are not smaller. -/

namespace Foundation.BackwardPass

variable {α β γ : Type} [LinearOrder β]

/-- The comparison of `x` with the entry behind it. -/
def exchange (key : α → β) (x : α) : List α → List α
  | [] => [x]
  | y :: l => if key x < key y then y :: x :: l else x :: y :: l

def pass (key : α → β) : List α → List α
  | [] => []
  | x :: l => exchange key x (pass key l)

theorem exchange_perm (key : α → β) (x : α) (l : List α) : (exchange key x l).Perm (x :: l) := by
  cases l with
  | nil => exact .refl _
  | cons y l =>
    rw [exchange]
    split
    · exact .swap x y l
    · exact .refl _

theorem pass_perm (key : α → β) (l : List α) : (pass key l).Perm l := by
  induction l with
  | nil => exact .refl _
  | cons x l ih => exact (exchange_perm key x _).trans (ih.cons x)

theorem map_pass (key : α → β) (f : γ → α) (l : List γ) :
    (pass (fun c => key (f c)) l).map f = pass key (l.map f) := by
  induction l with
  | nil => rfl
  | cons x l ih =>
    rw [List.map_cons, pass, pass, ← ih]
    cases pass (fun c => key (f c)) l with
    | nil => rfl
    | cons y l =>
      rw [exchange, List.map_cons, exchange]
      split <;> rfl

/-- The new entry ends up where a relation that goes by the keys wants it. -/
theorem pairwise_pass {key : α → β} {R : α → α → Prop} (hR : ∀ a b, R a b → key b ≤ key a)
    {l : List α} {x : α} (hl : l.Pairwise R) (hbehind : ∀ y ∈ l, key x ≤ key y → R y x)
    (hbefore : ∀ y ∈ l, key y < key x → R x y) :
    (pass key (l ++ [x])).Pairwise R := by
  induction l with
  | nil => exact List.pairwise_singleton R x
  | cons y l ih =>
    obtain ⟨hy, hl⟩ := List.pairwise_cons.mp hl
    have hrest := ih hl (fun z hz => hbehind z (.tail _ hz)) fun z hz => hbefore z (.tail _ hz)
    have hperm := pass_perm key (l ++ [x])
    rw [List.cons_append, pass]
    cases hp : pass key (l ++ [x]) with
    | nil =>
      rw [hp] at hperm
      exact absurd hperm.symm.eq_nil (by simp)
    | cons z zs =>
      rw [hp] at hperm hrest
      obtain ⟨hz, hzs⟩ := List.pairwise_cons.mp hrest
      have hmem : ∀ w, w ∈ z :: zs → w ∈ l ∨ w = x := by
        intro w hw
        have hw' := hperm.mem_iff.mp hw
        rwa [List.mem_append, List.mem_singleton] at hw'
      rw [exchange]
      split
      · -- Only the new entry can be larger than `y`.
        rename_i hlt
        have hzx : z = x := by
          refine (hmem z (.head _)).resolve_left fun hzl => ?_
          exact absurd (hR y z (hy z hzl)) (not_le.mpr hlt)
        subst hzx
        have hzsl : zs.Perm l :=
          ((List.perm_append_singleton z l).symm.trans hperm.symm).symm.cons_inv
        refine List.pairwise_cons.mpr ⟨fun w hw => ?_,
          List.pairwise_cons.mpr ⟨fun w hw => hy w (hzsl.mem_iff.mp hw), hzs⟩⟩
        rcases List.mem_cons.mp hw with rfl | hw
        · exact hbefore w (.head _) hlt
        · exact hz w hw
      · rename_i hle
        refine List.pairwise_cons.mpr ⟨fun w hw => ?_, hrest⟩
        rcases hmem w hw with hwl | rfl
        · exact hy w hwl
        · refine hbehind y (.head _) (le_trans ?_ (not_lt.mp hle))
          rcases List.mem_cons.mp hw with rfl | hw
          · exact le_rfl
          · exact hR z w (hz w hw)

end Foundation.BackwardPass
