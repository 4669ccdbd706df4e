import Mathlib.Tactic

/-! Texts joined with a separator, which is escaped inside them: the escaped text never runs past
the separator that follows it, so the parts can be told from the join. -/

namespace Foundation.EscapedJoin

variable {α : Type*} [DecidableEq α] (sep esc : α)

def escapeSymbol (c : α) : List α :=
  if c = esc then [esc, esc] else if c = sep then [esc, sep] else [c]

def escape (l : List α) : List α := l.flatMap (escapeSymbol sep esc)

variable {sep esc}

theorem escape_cons (c : α) (l : List α) :
    escape sep esc (c :: l) = escapeSymbol sep esc c ++ escape sep esc l :=
  List.flatMap_cons

theorem escape_of_clean {l : List α} (h : ∀ c ∈ l, c ≠ sep ∧ c ≠ esc) : escape sep esc l = l := by
  induction l with
  | nil => rfl
  | cons c rest ih =>
    obtain ⟨hsep, hesc⟩ := h c List.mem_cons_self
    rw [escape_cons, ih fun d hd => h d (List.mem_cons_of_mem c hd), escapeSymbol,
      if_neg hesc, if_neg hsep]
    rfl

/-- What follows a symbol's code cannot be taken for part of it. -/
theorem escapeSymbol_inj {c d : α} {x y : List α}
    (h : escapeSymbol sep esc c ++ x = escapeSymbol sep esc d ++ y) : c = d ∧ x = y := by
  unfold escapeSymbol at h
  split_ifs at h <;> grind

theorem sep_ne_escapeSymbol (hne : sep ≠ esc) {c : α} {x y : List α} :
    sep :: x ≠ escapeSymbol sep esc c ++ y := by
  unfold escapeSymbol
  split_ifs <;> grind

theorem escape_sep_inj (hne : sep ≠ esc) {a b x y : List α}
    (h : escape sep esc a ++ sep :: x = escape sep esc b ++ sep :: y) : a = b ∧ x = y := by
  induction a generalizing b with
  | nil =>
    cases b with
    | nil => exact ⟨rfl, List.tail_eq_of_cons_eq h⟩
    | cons d rest =>
      rw [escape_cons, List.append_assoc] at h
      exact absurd h (sep_ne_escapeSymbol hne)
  | cons c rest ih =>
    rw [escape_cons, List.append_assoc] at h
    cases b with
    | nil => exact absurd h.symm (sep_ne_escapeSymbol hne)
    | cons d rest' =>
      rw [escape_cons, List.append_assoc] at h
      obtain ⟨rfl, htail⟩ := escapeSymbol_inj h
      obtain ⟨rfl, rfl⟩ := ih htail
      exact ⟨rfl, rfl⟩

theorem escape_inj (hne : sep ≠ esc) {a b : List α} (h : escape sep esc a = escape sep esc b) :
    a = b :=
  (escape_sep_inj (x := []) (y := []) hne (by rw [h])).1

end Foundation.EscapedJoin
