import Foundation.Lib.GoMap

/-! A list of distinct keys with the position of each, where a key is removed by moving the last one
into its place. -/

namespace Foundation.SwapTable

variable {K : Type} [DecidableEq K]

/-- The index gives the position of every key of the list, and nothing else. -/
def Inverse (order : List K) (index : GoMap K ℕ) : Prop :=
  ∀ k i, index.lookup k = some i ↔ order[i]? = some k

variable {order : List K} {index : GoMap K ℕ} {key : K} {pos : ℕ}

theorem inverse_empty : Inverse ([] : List K) ∅ := fun k i => by simp

theorem Inverse.nodup (h : Inverse order index) : order.Nodup := by
  refine List.nodup_iff_injective_getElem.mpr fun i j hij => ?_
  have hi : index.lookup order[j] = some (i : ℕ) := by
    rw [h, List.getElem?_eq_getElem i.isLt]
    exact congrArg some hij
  have hj : index.lookup order[j] = some (j : ℕ) := (h _ _).mpr (List.getElem?_eq_getElem j.isLt)
  exact Fin.ext (Option.some.inj (hi.symm.trans hj))

theorem Inverse.mem_iff (h : Inverse order index) (k : K) :
    k ∈ order ↔ ∃ i, index.lookup k = some (i : ℕ) := by
  simp only [List.mem_iff_getElem?, h k]

theorem Inverse.lookup_eq_none (h : Inverse order index) {k : K} (hk : k ∉ order) :
    index.lookup k = none :=
  Option.eq_none_iff_forall_ne_some.mpr fun i hi => hk ((h.mem_iff k).mpr ⟨i, hi⟩)

theorem Inverse.push (h : Inverse order index) (hkey : key ∉ order) :
    Inverse (order ++ [key]) (index.insert key order.length) := by
  intro k i
  rw [GoMap.lookup_insert_if]
  rcases Nat.lt_trichotomy i order.length with hi | rfl | hi
  · rw [List.getElem?_append_left hi, ← h k i]
    split_ifs with hk
    · subst hk
      rw [h.lookup_eq_none hkey]
      simp [hi.ne']
    · rfl
  · rw [List.getElem?_concat_length]
    split_ifs with hk
    · simp [hk]
    · have hnone : ¬index.lookup k = some order.length :=
        fun hk => by simpa using (h k order.length).mp hk
      simp [hnone, Ne.symm hk]
  · rw [List.getElem?_eq_none (by simp; omega)]
    split_ifs with hk
    · simp [hi.ne]
    · have hnone : ¬index.lookup k = some i := fun hk => by
        have hsome := (h k i).mp hk
        rw [List.getElem?_eq_none hi.le] at hsome
        exact absurd hsome (by simp)
      simp [hnone]

def removeOrder (order : List K) (index : ℕ) (last : K) : List K := (order.set index last).dropLast

/-- The last key takes the place of the removed one. -/
theorem Inverse.remove (h : Inverse order index) (hat : index.lookup key = some pos) {last : K}
    (hlast : order[order.length - 1]? = some last) :
    Inverse (removeOrder order pos last) ((index.insert last pos).erase key) := by
  have hkey : order[pos]? = some key := (h key pos).mp hat
  have hlt : pos < order.length := (List.getElem?_eq_some_iff.mp hkey).1
  have hlast' : index.lookup last = some (order.length - 1) := (h last _).mpr hlast
  intro k i
  rw [GoMap.lookup_erase_if, GoMap.lookup_insert_if, removeOrder, List.getElem?_dropLast,
    List.length_set,
    List.getElem?_set]
  by_cases hk : k = key
  · subst hk
    rw [if_pos rfl]
    refine iff_of_false (by simp) fun hsome => ?_
    split_ifs at hsome with hi hpos
    · rw [Option.some.inj hsome, hat] at hlast'
      exact absurd (Option.some.inj hlast') (by omega)
    · rw [← h k i, hat] at hsome
      exact hpos (Option.some.inj hsome)
  rw [if_neg hk]
  by_cases hkl : k = last
  · subst hkl
    rw [if_pos rfl]
    constructor
    · intro hi
      obtain rfl := Option.some.inj hi
      have hne : pos ≠ order.length - 1 := by
        rintro heq
        rw [heq, hlast] at hkey
        exact hk (Option.some.inj hkey)
      rw [if_pos (by omega), if_pos rfl, if_pos hlt]
    · intro hsome
      split_ifs at hsome with hi hpos
      · rw [hpos]
      · rw [← h k i, hlast'] at hsome
        exact absurd (Option.some.inj hsome) (by omega)
  · rw [if_neg hkl, h k i]
    constructor
    · intro hsome
      have hi := (List.getElem?_eq_some_iff.mp hsome).1
      have hne : i ≠ order.length - 1 := by
        rintro rfl
        exact hkl (Option.some.inj (hsome.symm.trans hlast))
      have hne' : pos ≠ i := by
        rintro rfl
        exact hk (Option.some.inj (hsome.symm.trans hkey))
      rw [if_pos (by omega), if_neg hne', hsome]
    · intro hsome
      split_ifs at hsome with hi hpos
      · exact absurd (Option.some.inj hsome).symm hkl
      · exact hsome

theorem Inverse.mem_remove (h : Inverse order index) (hat : index.lookup key = some pos) {last : K}
    (hlast : order[order.length - 1]? = some last) (k : K) :
    k ∈ removeOrder order pos last ↔ k ∈ order ∧ k ≠ key := by
  have hmem : last ∈ order := List.mem_of_getElem? hlast
  rw [(h.remove hat hlast).mem_iff, h.mem_iff, GoMap.lookup_erase_if, GoMap.lookup_insert_if]
  split_ifs with hk hk'
  · simp [hk]
  · subst hk'
    simp [hk, (h.mem_iff k).mp hmem]
  · simp [hk]

end Foundation.SwapTable
