import Mathlib.Data.List.Dedup
import Mathlib.Data.List.Pairwise
import Mathlib.Data.List.Perm.Subperm
import Mathlib.Algebra.Order.Group.Nat

/-! Pages of a list that descends in a rank: what a page leaves over. -/

namespace Foundation.Paging

variable {α : Type*} (rank : α → ℕ)

def Descending (l : List α) : Prop := l.Pairwise fun a b => rank b < rank a

variable {rank} {l l' : List α}

theorem Descending.nodup (h : Descending rank l) : l.Nodup :=
  List.Pairwise.imp (fun hlt heq => (heq ▸ hlt).false) h

theorem Descending.filter (h : Descending rank l) (p : α → Bool) : Descending rank (l.filter p) :=
  List.Pairwise.filter p h

/-- Those below an element are the ones after it. -/
theorem Descending.filter_below (h : Descending rank l) {k : ℕ} {e : α}
    (hlast : (l.take k).getLast? = some e) :
    (l.filter fun x => decide (rank x < rank e)) = l.drop k := by
  obtain ⟨init, hinit⟩ := List.getLast?_eq_some_iff.mp hlast
  have hsplit : l = init ++ ([e] ++ l.drop k) := by
    rw [← List.append_assoc, ← hinit, List.take_append_drop]
  rw [hsplit, Descending, List.pairwise_append] at h
  obtain ⟨-, hrest, hcross⟩ := h
  rw [List.singleton_append, List.pairwise_cons] at hrest
  conv_lhs => rw [hsplit]
  rw [List.filter_append, List.filter_append, List.filter_eq_nil_iff.mpr, List.nil_append,
    List.filter_eq_nil_iff.mpr, List.nil_append, List.filter_eq_self.mpr]
  · exact fun x hx => decide_eq_true (hrest.1 x hx)
  · intro x hx
    rw [List.mem_singleton.mp hx, decide_eq_true_eq]
    exact lt_irrefl _
  · intro x hx
    rw [decide_eq_true_eq]
    exact (hcross x hx e (by simp)).not_gt

end Foundation.Paging
