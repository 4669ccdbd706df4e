import Mathlib.Data.List.Sort
import Mathlib.Order.Lattice

/-! Lists of named fields and their normal form: names trimmed and not blank, each once, in
increasing order, the last field of a name standing for it. -/

namespace Foundation

/-- How fields are named: the key that orders names, and the field under its trimmed name. -/
structure Naming (F L : Type) [LinearOrder L] where
  key : F → L
  trimmed : F → F
  blank : L
  trimmed_trimmed : ∀ f, trimmed (trimmed f) = trimmed f
  blank_le : ∀ f, blank ≤ key f

namespace Naming

variable {F L : Type} [LinearOrder L] (N : Naming F L)

def isSortedUniqueFrom (previous : L) : List F → Bool
  | [] => true
  | f :: rest =>
    let name := N.key (N.trimmed f)
    if name = N.blank ∨ ¬ previous < name then false else isSortedUniqueFrom name rest

def isSortedUnique (d : List F) : Bool := N.isSortedUniqueFrom N.blank d

/-- A later field takes the place of an earlier one of the same name. -/
def putField (out : List F) (f : F) : List F :=
  let name := N.key (N.trimmed f)
  if name = N.blank then out
  else if out.any fun g => decide (N.key g = name) then out.map fun g => if N.key g = name then
    N.trimmed f else g
  else out ++ [N.trimmed f]

def normalize (d : List F) : List F :=
  if N.isSortedUnique d then d.map N.trimmed
  else (d.foldl N.putField []).insertionSort fun a b => N.key a ≤ N.key b

structure Normal (d : List F) : Prop where
  trimmed : ∀ f ∈ d, N.trimmed f = f
  nonblank : ∀ f ∈ d, N.key f ≠ N.blank
  increasing : d.Pairwise fun a b => N.key a < N.key b

/-- What the deduplicating loop keeps true of its output. -/
structure Distinct (out : List F) : Prop where
  trimmed : ∀ f ∈ out, N.trimmed f = f
  nonblank : ∀ f ∈ out, N.key f ≠ N.blank
  nodup : (out.map N.key).Nodup

variable {N}

theorem isSortedUniqueFrom_iff (d : List F) (previous : L) :
    N.isSortedUniqueFrom previous d = true ↔
      (∀ f ∈ d, N.key (N.trimmed f) ≠ N.blank ∧ previous < N.key (N.trimmed f)) ∧
        d.Pairwise fun a b => N.key (N.trimmed a) < N.key (N.trimmed b) := by
  induction d generalizing previous with
  | nil => simp [isSortedUniqueFrom]
  | cons f rest ih =>
    simp only [isSortedUniqueFrom, List.mem_cons, forall_eq_or_imp, List.pairwise_cons]
    split_ifs with h
    · simp only [false_iff]
      rintro ⟨⟨⟨hblank, hlt⟩, -⟩, -⟩
      exact h.elim hblank (absurd hlt)
    · rw [not_or, not_not] at h
      rw [ih]
      constructor
      · rintro ⟨hrest, hpair⟩
        exact ⟨⟨h, fun g hg => ⟨(hrest g hg).1, h.2.trans (hrest g hg).2⟩⟩,
          fun g hg => (hrest g hg).2, hpair⟩
      · rintro ⟨⟨-, hrest⟩, hhead, hpair⟩
        exact ⟨fun g hg => ⟨(hrest g hg).1, hhead g hg⟩, hpair⟩

theorem Distinct.putField {out : List F} (h : N.Distinct out) (f : F) :
    N.Distinct (N.putField out f) := by
  unfold Naming.putField
  dsimp only
  split_ifs with hblank hmem
  · exact h
  · have hkeys : (out.map fun g => if N.key g = N.key (N.trimmed f) then N.trimmed f
        else g).map N.key =
        out.map N.key := by
      rw [List.map_map]
      refine List.map_congr_left fun g _ => ?_
      rw [Function.comp_apply]
      split_ifs with hg
      · exact hg.symm
      · rfl
    refine ⟨fun g hg => ?_, fun g hg => ?_, by rw [hkeys]; exact h.nodup⟩
    · obtain ⟨g', hg', rfl⟩ := List.mem_map.mp hg
      split_ifs
      · exact N.trimmed_trimmed f
      · exact h.trimmed g' hg'
    · obtain ⟨g', hg', rfl⟩ := List.mem_map.mp hg
      split_ifs
      · exact hblank
      · exact h.nonblank g' hg'
  · refine ⟨fun g hg => ?_, fun g hg => ?_, ?_⟩
    · rcases List.mem_append.mp hg with hg | hg
      · exact h.trimmed g hg
      · rw [List.mem_singleton.mp hg, N.trimmed_trimmed]
    · rcases List.mem_append.mp hg with hg | hg
      · exact h.nonblank g hg
      · rwa [List.mem_singleton.mp hg]
    · rw [List.map_append, List.map_singleton, List.nodup_append]
      refine ⟨h.nodup, List.nodup_singleton _, fun a ha b hb hab => ?_⟩
      obtain ⟨g, hg, rfl⟩ := List.mem_map.mp ha
      exact hmem
        (List.any_eq_true.mpr ⟨g, hg, decide_eq_true (hab.trans (List.mem_singleton.mp hb))⟩)

theorem foldl_putField_distinct (fields out : List F) (h : N.Distinct out) :
    N.Distinct (fields.foldl N.putField out) := by
  induction fields generalizing out with
  | nil => exact h
  | cons f rest ih => exact ih _ (h.putField f)

theorem normalize_normal (d : List F) : N.Normal (N.normalize d) := by
  unfold normalize
  split_ifs with h
  · obtain ⟨hnames, hpair⟩ := (isSortedUniqueFrom_iff d N.blank).mp h
    refine ⟨fun g hg => ?_, fun g hg => ?_, List.pairwise_map.mpr hpair⟩
    · obtain ⟨f, -, rfl⟩ := List.mem_map.mp hg
      exact N.trimmed_trimmed f
    · obtain ⟨f, hf, rfl⟩ := List.mem_map.mp hg
      exact (hnames f hf).1
  · have hd := foldl_putField_distinct d [] (show N.Distinct [] from ⟨by simp, by simp, by simp⟩)
    have hperm := List.perm_insertionSort (fun a b => N.key a ≤ N.key b) (d.foldl N.putField [])
    refine ⟨fun g hg => hd.trimmed g (hperm.mem_iff.mp hg),
      fun g hg => hd.nonblank g (hperm.mem_iff.mp hg), ?_⟩
    have hsorted : ((d.foldl N.putField []).insertionSort fun a b => N.key a ≤ N.key b).Pairwise
        fun a b => N.key a ≤ N.key b := by
      have : Std.Total (fun a b : F => N.key a ≤ N.key b) := ⟨fun a b => le_total _ _⟩
      have : IsTrans F (fun a b => N.key a ≤ N.key b) := ⟨fun a b c => le_trans⟩
      exact List.pairwise_insertionSort _ _
    have hnodup := (hperm.map N.key).nodup_iff.mpr hd.nodup
    rw [List.nodup_iff_pairwise_ne, List.pairwise_map] at hnodup
    exact (hsorted.and hnodup).imp fun hab => lt_of_le_of_ne hab.1 hab.2

theorem mem_putField {out : List F} {f g : F} (h : g ∈ N.putField out f) :
    g ∈ out ∨ g = N.trimmed f := by
  unfold putField at h
  dsimp only at h
  split_ifs at h
  · exact .inl h
  · obtain ⟨g', hg', rfl⟩ := List.mem_map.mp h
    split_ifs
    · exact .inr rfl
    · exact .inl hg'
  · exact (List.mem_append.mp h).imp_right List.mem_singleton.mp

theorem mem_foldl_putField {fields out : List F} {g : F} (h : g ∈ fields.foldl N.putField out) :
    g ∈ out ∨ ∃ f ∈ fields, g = N.trimmed f := by
  induction fields generalizing out with
  | nil => exact .inl h
  | cons f rest ih =>
    rcases ih h with h | ⟨f', hf', rfl⟩
    · exact (mem_putField h).imp_right fun heq => ⟨f, List.mem_cons_self, heq⟩
    · exact .inr ⟨f', List.mem_cons_of_mem _ hf', rfl⟩

/-- A normal form holds the given fields under their trimmed names. -/
theorem mem_normalize {d : List F} {g : F} (h : g ∈ N.normalize d) : ∃ f ∈ d, g = N.trimmed f := by
  unfold normalize at h
  split_ifs at h
  · obtain ⟨f, hf, rfl⟩ := List.mem_map.mp h
    exact ⟨f, hf, rfl⟩
  · exact (mem_foldl_putField ((List.perm_insertionSort _ _).mem_iff.mp h)).resolve_left
      List.not_mem_nil

theorem isSortedUnique_of_normal {d : List F} (h : N.Normal d) : N.isSortedUnique d = true := by
  rw [isSortedUnique, isSortedUniqueFrom_iff]
  refine ⟨fun f hf => ?_, h.increasing.imp_of_mem fun ha hb hlt => ?_⟩
  · rw [h.trimmed f hf]
    exact ⟨h.nonblank f hf, lt_of_le_of_ne (N.blank_le f) (h.nonblank f hf).symm⟩
  · rwa [h.trimmed _ ha, h.trimmed _ hb]

theorem normalize_of_normal {d : List F} (h : N.Normal d) : N.normalize d = d := by
  rw [normalize, if_pos (isSortedUnique_of_normal h)]
  exact (List.map_congr_left h.trimmed).trans (List.map_id d)

end Naming

end Foundation
