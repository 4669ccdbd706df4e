import Foundation.Lib.GoMap
import Mathlib.Tactic

/-! Sets kept as a chain of deltas, newest first. Each delta adds and removes keys, and
the newest delta that mentions a key decides whether the key is in the set. -/

namespace Foundation.DeltaChain

variable {α : Type} [DecidableEq α]

structure Delta (α : Type) where
  adds : Finset α
  removes : Finset α

def survivors : List (Delta α) → Finset α
  | [] => ∅
  | d :: rest => (d.adds ∪ survivors rest) \ d.removes

/-- The newest-first walk that reports a key at its first mention, if that is an add. -/
def walk (o : RangeOrder α) : Finset α → List (Delta α) → List α
  | _, [] => []
  | seen, d :: rest =>
    (o.visit d.adds).filter (· ∉ seen ∪ d.removes) ++ walk o (seen ∪ d.removes ∪ d.adds) rest

/-- The two accumulating sets of a compaction, live keys first. -/
def compactStep (acc : Finset α × Finset α) (d : Delta α) : Finset α × Finset α :=
  let dead := acc.2 ∪ (d.removes \ (acc.1 ∪ acc.2))
  (acc.1 ∪ (d.adds \ (acc.1 ∪ dead)), dead)

def compact (ds : List (Delta α)) : Finset α := (ds.foldl compactStep (∅, ∅)).1

theorem mem_walk (o : RangeOrder α) (k : α) (ds : List (Delta α)) (seen : Finset α) :
    k ∈ walk o seen ds ↔ k ∉ seen ∧ k ∈ survivors ds := by
  induction ds generalizing seen with
  | nil => simp [walk, survivors]
  | cons d rest ih =>
    simp only [walk, survivors, List.mem_append, List.mem_filter, o.mem, ih, decide_eq_true_eq,
      Finset.mem_union, Finset.mem_sdiff, not_or]
    tauto

theorem nodup_walk (o : RangeOrder α) (ds : List (Delta α)) (seen : Finset α) :
    (walk o seen ds).Nodup := by
  induction ds generalizing seen with
  | nil => exact List.nodup_nil
  | cons d rest ih =>
    refine List.nodup_append.mpr ⟨(o.nodup _).filter _, ih _, ?_⟩
    rintro a ha b hb rfl
    have hadd := (o.mem _ a).mp (List.mem_filter.mp ha).1
    have hnot := ((mem_walk o a rest _).mp hb).1
    exact hnot (Finset.mem_union_right _ hadd)

theorem compactStep_dead (acc : Finset α × Finset α) (d : Delta α) :
    (compactStep acc d).2 = acc.2 ∪ (d.removes \ acc.1) := by
  ext k
  simp only [compactStep, Finset.mem_union, Finset.mem_sdiff]
  tauto

theorem compactStep_live (acc : Finset α × Finset α) (d : Delta α) :
    (compactStep acc d).1 = acc.1 ∪ (d.adds \ (acc.2 ∪ d.removes)) := by
  ext k
  simp only [compactStep, Finset.mem_union, Finset.mem_sdiff]
  tauto

theorem foldl_compactStep (ds : List (Delta α)) (acc : Finset α × Finset α) :
    (ds.foldl compactStep acc).1 = acc.1 ∪ (survivors ds \ acc.2) := by
  induction ds generalizing acc with
  | nil => simp [survivors]
  | cons d rest ih =>
    rw [List.foldl_cons, ih, compactStep_live, compactStep_dead]
    ext k
    simp only [survivors, Finset.mem_union, Finset.mem_sdiff]
    tauto

/-- Compaction keeps exactly the set the chain stands for. -/
theorem compact_eq_survivors (ds : List (Delta α)) : compact ds = survivors ds := by
  rw [compact, foldl_compactStep]
  simp

/-- A chain whose last delta removes nothing can be walked in two parts, with the keys
mentioned before it collected on the way. -/
def walkSplit (o : RangeOrder α) (ds : List (Delta α)) (terminal : Delta α) : List α :=
  walk o ∅ ds ++
    (o.visit terminal.adds).filter (· ∉ ds.foldl (fun seen d => seen ∪ d.removes ∪ d.adds) ∅)

theorem walk_append (o : RangeOrder α) (ds es : List (Delta α)) (seen : Finset α) :
    walk o seen (ds ++ es) =
      walk o seen ds ++ walk o (ds.foldl (fun seen d => seen ∪ d.removes ∪ d.adds) seen) es := by
  induction ds generalizing seen with
  | nil => rfl
  | cons d rest ih => simp only [List.cons_append, walk, List.foldl_cons, ih, List.append_assoc]

theorem walkSplit_eq (o : RangeOrder α) (ds : List (Delta α)) (terminal : Delta α)
    (h : terminal.removes = ∅) : walkSplit o ds terminal = walk o ∅ (ds ++ [terminal]) := by
  rw [walk_append, walkSplit]
  simp [walk, h]

end Foundation.DeltaChain
