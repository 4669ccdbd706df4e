import Mathlib.Data.Finmap
import Mathlib.Data.List.Sort
import Mathlib.Data.Finset.Card
import Mathlib.Algebra.Order.BigOperators.Group.Finset
import Mathlib.Tactic.Abel

/-! Finite maps as a Go program sees them: lookup, insert and delete are those of a
finite map, and a `range` loop visits every key once in an order the language does
not fix. The order is therefore a parameter, and results are stated for all of them. -/

namespace Foundation

abbrev GoMap (K V : Type) := Finmap (fun _ : K => V)

namespace GoMap

variable {K V : Type} [DecidableEq K]

theorem lookup_insert_if (m : GoMap K V) (a b : K) (v : V) :
    (m.insert a v).lookup b = if b = a then some v else m.lookup b := by
  split_ifs with h
  · subst h; exact Finmap.lookup_insert m
  · exact Finmap.lookup_insert_of_ne m h

theorem lookup_erase_if (m : GoMap K V) (a b : K) :
    (m.erase a).lookup b = if b = a then none else m.lookup b := by
  split_ifs with h
  · subst h; exact Finmap.lookup_erase b m
  · exact Finmap.lookup_erase_ne h

theorem mem_keys_iff (m : GoMap K V) (a : K) : a ∈ m.keys ↔ ∃ v, m.lookup a = some v := by
  rw [Finmap.mem_keys, Finmap.mem_iff]

theorem keys_insert (m : GoMap K V) (a : K) (v : V) :
    (m.insert a v).keys = insert a m.keys := by
  ext x
  simp [Finmap.mem_keys, Finmap.mem_insert]

def total {M : Type} [AddCommGroup M] (f : V → M) (m : GoMap K V) : M :=
  ∑ k ∈ m.keys, ((m.lookup k).map f).getD 0

variable {M : Type} [AddCommGroup M]

theorem total_empty (f : V → M) : total f (∅ : GoMap K V) = 0 := by
  simp [total]

/-- A key that is not held measures nothing, so a total may be taken over any superset. -/
theorem total_eq_sum (f : V → M) (m : GoMap K V) {s : Finset K} (h : m.keys ⊆ s) :
    total f m = ∑ k ∈ s, ((m.lookup k).map f).getD 0 := by
  refine Finset.sum_subset h fun k _ hk => ?_
  have hnone : m.lookup k = none := by
    cases hl : m.lookup k with
    | none => rfl
    | some v => exact absurd ((mem_keys_iff m k).mpr ⟨v, hl⟩) hk
  simp [hnone]

theorem total_insert (f : V → M) (m : GoMap K V) (a : K) (v : V) :
    total f (m.insert a v) = total f m + f v - ((m.lookup a).map f).getD 0 := by
  rw [total_eq_sum f m (Finset.subset_insert a m.keys), total, keys_insert,
    ← Finset.add_sum_erase _ _ (Finset.mem_insert_self a m.keys),
    ← Finset.add_sum_erase (insert a m.keys) (fun k => ((m.lookup k).map f).getD 0)
      (Finset.mem_insert_self a m.keys)]
  have hrest : ∀ k ∈ (insert a m.keys).erase a,
      (((m.insert a v).lookup k).map f).getD 0 = ((m.lookup k).map f).getD 0 := fun k hk => by
    rw [lookup_insert_if, if_neg (Finset.ne_of_mem_erase hk)]
  rw [Finset.sum_congr rfl hrest, lookup_insert_if, if_pos rfl, Option.map_some, Option.getD_some]
  abel

theorem total_erase (f : V → M) (m : GoMap K V) (a : K) :
    total f (m.erase a) = total f m - ((m.lookup a).map f).getD 0 := by
  have hsub : (m.erase a).keys ⊆ insert a m.keys := fun k hk => by
    obtain ⟨v, hv⟩ := (mem_keys_iff _ k).mp hk
    rw [lookup_erase_if] at hv
    split_ifs at hv
    exact Finset.mem_insert_of_mem ((mem_keys_iff m k).mpr ⟨v, hv⟩)
  rw [total_eq_sum f m (Finset.subset_insert a m.keys), total_eq_sum f _ hsub,
    ← Finset.add_sum_erase _ _ (Finset.mem_insert_self a m.keys),
    ← Finset.add_sum_erase (insert a m.keys) (fun k => ((m.lookup k).map f).getD 0)
      (Finset.mem_insert_self a m.keys)]
  have hrest : ∀ k ∈ (insert a m.keys).erase a,
      (((m.erase a).lookup k).map f).getD 0 = ((m.lookup k).map f).getD 0 := fun k hk => by
    rw [lookup_erase_if, if_neg (Finset.ne_of_mem_erase hk)]
  rw [Finset.sum_congr rfl hrest, lookup_erase_if, if_pos rfl, Option.map_none, Option.getD_none]
  abel

theorem card_keys_eq_total (m : GoMap K V) : (m.keys.card : ℤ) = total (fun _ => (1 : ℤ)) m := by
  have hone : ∀ k ∈ m.keys, ((m.lookup k).map fun _ => (1 : ℤ)).getD 0 = 1 := fun k hk => by
    obtain ⟨v, hv⟩ := (mem_keys_iff m k).mp hk
    simp [hv]
  rw [total, Finset.sum_congr rfl hone, Finset.sum_const, Int.nsmul_eq_mul, mul_one]

end GoMap

/-- One order in which a `range` loop can visit the keys of a map. -/
structure RangeOrder (α : Type) [DecidableEq α] where
  visit : Finset α → List α
  nodup : ∀ s, (visit s).Nodup
  mem : ∀ s a, a ∈ visit s ↔ a ∈ s

namespace RangeOrder

variable {α : Type} [DecidableEq α]

/-- Ascending order of an injective key, for runs on concrete input. -/
def ascendingBy {β : Type} [LinearOrder β] (f : α → β) (hf : Function.Injective f) :
    RangeOrder α where
  visit s := s.val.liftOn (fun l => l.insertionSort (f · ≤ f ·)) fun l l' h => by
    have htotal : Std.Total (f · ≤ f · : α → α → Prop) := ⟨fun a b => le_total (f a) (f b)⟩
    have htrans : IsTrans α (f · ≤ f ·) := ⟨fun _ _ _ hab hbc => le_trans hab hbc⟩
    exact ((List.perm_insertionSort _ l).trans
      (h.trans (List.perm_insertionSort _ l').symm)).eq_of_pairwise
      (fun _ _ _ _ hab hba => hf (le_antisymm hab hba))
      (List.pairwise_insertionSort _ l) (List.pairwise_insertionSort _ l')
  nodup s := by
    obtain ⟨⟨l⟩, h⟩ := s
    exact (List.perm_insertionSort _ l).nodup_iff.mpr h
  mem s a := by
    obtain ⟨⟨l⟩, h⟩ := s
    exact List.mem_insertionSort _

theorem visit_empty (o : RangeOrder α) : o.visit ∅ = [] :=
  List.eq_nil_iff_forall_not_mem.mpr fun a ha => by simpa using (o.mem ∅ a).mp ha

end RangeOrder

namespace GoMap

variable {K V W : Type} [DecidableEq K]

def entries (o : RangeOrder K) (m : GoMap K V) : List (K × V) :=
  (o.visit m.keys).filterMap fun k => (m.lookup k).map fun v => (k, v)

theorem mem_entries (o : RangeOrder K) (m : GoMap K V) (k : K) (v : V) :
    (k, v) ∈ entries o m ↔ m.lookup k = some v := by
  simp only [entries, List.mem_filterMap, Option.map_eq_some_iff, Prod.mk.injEq]
  constructor
  · rintro ⟨_, _, _, hv, rfl, rfl⟩
    exact hv
  · exact fun h => ⟨k, (o.mem _ _).mpr ((mem_keys_iff m k).mpr ⟨v, h⟩), v, h, rfl, rfl⟩

theorem nodup_keys_entries (o : RangeOrder K) (m : GoMap K V) :
    ((entries o m).map Prod.fst).Nodup := by
  rw [entries, List.map_filterMap]
  refine (o.nodup _).filterMap fun a a' b hb hb' => ?_
  simp only [Option.map_map, Option.mem_def, Option.map_eq_some_iff, Function.comp_apply] at hb hb'
  obtain ⟨_, _, rfl⟩ := hb
  obtain ⟨_, _, h⟩ := hb'
  exact h.symm

/-- A loop whose rounds each change the entry of their own key leaves, at every key, what
the round of that key makes of it. -/
theorem lookup_foldl (step : GoMap K W → K → V → GoMap K W) (g : K → V → Option W → Option W)
    (hstep : ∀ s k v k', (step s k v).lookup k' = if k' = k then
      g k v (s.lookup k) else s.lookup k') (l : List (K × V)) (hl : (l.map Prod.fst).Nodup)
    (s : GoMap K W) (k : K) :
    (l.foldl (fun s e => step s e.1 e.2) s).lookup k =
      match l.find? (·.1 == k) with
      | some e => g k e.2 (s.lookup k)
      | none => s.lookup k := by
  induction l generalizing s with
  | nil => rfl
  | cons e rest ih =>
    rw [List.map_cons, List.nodup_cons] at hl
    rw [List.foldl_cons, ih hl.2, hstep, List.find?_cons]
    by_cases hk : k = e.1
    · subst hk
      have hnone : rest.find? (·.1 == e.1) = none := by
        rw [List.find?_eq_none]
        intro e' he' heq
        exact hl.1 (List.mem_map.mpr ⟨e', he', beq_iff_eq.mp heq⟩)
      rw [hnone]
      simp
    · have hne : (e.1 == k) = false := beq_eq_false_iff_ne.mpr (Ne.symm hk)
      simp only [hne, if_neg hk]

theorem find_entries (o : RangeOrder K) (m : GoMap K V) (k : K) :
    (entries o m).find? (·.1 == k) = (m.lookup k).map fun v => (k, v) := by
  cases hv : m.lookup k with
  | none =>
    rw [Option.map_none, List.find?_eq_none]
    rintro ⟨k', v⟩ hmem heq
    obtain rfl : k' = k := beq_iff_eq.mp heq
    rw [mem_entries, hv] at hmem
    cases hmem
  | some v =>
    cases hf : (entries o m).find? (·.1 == k) with
    | none =>
      exact absurd (beq_self_eq_true k) (List.find?_eq_none.mp hf _ ((mem_entries o m k v).mpr hv))
    | some e =>
      have hk : e.1 = k := beq_iff_eq.mp (by simpa using List.find?_some hf)
      have hmem : (e.1, e.2) ∈ entries o m := List.mem_of_find?_eq_some hf
      rw [mem_entries, hk, hv, Option.some_inj] at hmem
      rw [Option.map_some, hmem, ← hk]

theorem lookup_foldl_entries (o : RangeOrder K) (m : GoMap K V)
    (step : GoMap K W → K → V → GoMap K W) (g : K → V → Option W → Option W)
    (hstep : ∀ s k v k', (step s k v).lookup k' = if k' = k then
      g k v (s.lookup k) else s.lookup k') (s : GoMap K W) (k : K) :
    ((entries o m).foldl (fun s e => step s e.1 e.2) s).lookup k =
      match m.lookup k with
      | some v => g k v (s.lookup k)
      | none => s.lookup k := by
  rw [lookup_foldl step g hstep _ (nodup_keys_entries o m), find_entries]
  cases m.lookup k <;> rfl

end GoMap

end Foundation
