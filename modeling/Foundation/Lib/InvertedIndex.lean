import Foundation.Lib.GoMap

/-! Maps from labels to the keys that carry them, and logs kept per label. A label without keys
is not in the map; a log only grows. -/

namespace Foundation.InvertedIndex

variable {L K V E : Type} [DecidableEq L]

section Keys

variable [DecidableEq K]

def keysAt (index : GoMap L (Finset K)) (label : L) : Finset K := (index.lookup label).getD ∅

def addKey (key : K) (index : GoMap L (Finset K)) (label : L) : GoMap L (Finset K) :=
  index.insert label (insert key (keysAt index label))

def removeKey (key : K) (index : GoMap L (Finset K)) (label : L) : GoMap L (Finset K) :=
  if (keysAt index label).erase key = ∅ then index.erase label
  else index.insert label ((keysAt index label).erase key)

variable {index : GoMap L (Finset K)} {key k : K} {label l : L}

theorem mem_addKey :
    k ∈ keysAt (addKey key index label) l ↔ (l = label ∧ k = key) ∨ k ∈ keysAt index l := by
  unfold addKey keysAt
  rw [GoMap.lookup_insert_if]
  by_cases hl : l = label
  · subst hl
    simp
  · simp [hl]

theorem keysAt_removeKey : keysAt (removeKey key index label) l =
    if l = label then (keysAt index l).erase key else keysAt index l := by
  unfold removeKey
  by_cases hl : l = label
  · subst hl
    rw [if_pos rfl]
    split_ifs with hempty
    · rw [hempty, keysAt, GoMap.lookup_erase_if, if_pos rfl]
      rfl
    · rw [keysAt, GoMap.lookup_insert_if, if_pos rfl]
      rfl
  · rw [if_neg hl]
    unfold keysAt
    split_ifs
    · rw [GoMap.lookup_erase_if, if_neg hl]
    · rw [GoMap.lookup_insert_if, if_neg hl]

theorem mem_removeKey :
    k ∈ keysAt (removeKey key index label) l ↔ k ∈ keysAt index l ∧ ¬ (l = label ∧ k = key) := by
  rw [keysAt_removeKey]
  by_cases hl : l = label
  · simp [hl, and_comm]
  · simp [hl]

theorem mem_addKeys (labels : List L) :
    k ∈ keysAt (labels.foldl (addKey key) index) l ↔ (l ∈ labels ∧ k = key) ∨
      k ∈ keysAt index l := by
  induction labels generalizing index with
  | nil => simp
  | cons label rest ih =>
    rw [List.foldl_cons, ih, mem_addKey, List.mem_cons]
    tauto

theorem mem_removeKeys (labels : List L) :
    k ∈ keysAt (labels.foldl (removeKey key) index) l ↔ k ∈ keysAt index l ∧
      ¬ (l ∈ labels ∧ k = key) := by
  induction labels generalizing index with
  | nil => simp
  | cons label rest ih =>
    rw [List.foldl_cons, ih, mem_removeKey, List.mem_cons]
    tauto

/-- No label is kept without a key. -/
def Tidy (index : GoMap L (Finset K)) : Prop := ∀ l s, index.lookup l = some s → s ≠ ∅

theorem Tidy.addKey (h : Tidy index) (key : K) (label : L) : Tidy (addKey key index label) := by
  intro l s hs
  unfold InvertedIndex.addKey at hs
  rw [GoMap.lookup_insert_if] at hs
  split_ifs at hs
  · obtain rfl := Option.some.inj hs
    exact Finset.insert_ne_empty _ _
  · exact h l s hs

theorem Tidy.removeKey (h : Tidy index) (key : K) (label : L) :
    Tidy (removeKey key index label) := by
  intro l s hs
  unfold InvertedIndex.removeKey at hs
  by_cases hempty : (keysAt index label).erase key = ∅
  · rw [if_pos hempty, GoMap.lookup_erase_if] at hs
    split_ifs at hs
    exact h l s hs
  · rw [if_neg hempty, GoMap.lookup_insert_if] at hs
    split_ifs at hs
    · obtain rfl := Option.some.inj hs
      exact hempty
    · exact h l s hs

omit [DecidableEq K] in
theorem Tidy.lookup_eq_none (h : Tidy index) : index.lookup l = none ↔ keysAt index l = ∅ := by
  unfold keysAt
  cases hl : index.lookup l with
  | none => simp
  | some s => simpa using h l s hl

variable {stored : GoMap K V} {labels : V → List L} {v : V}

/-- The index holds every stored key under the labels of its value, and nothing else. -/
structure Indexes (labels : V → List L) (stored : GoMap K V) (index : GoMap L (Finset K)) :
  Prop where
  mem_iff : ∀ l k, k ∈ keysAt index l ↔ ∃ v, stored.lookup k = some v ∧ l ∈ labels v
  tidy : Tidy index

theorem indexes_empty (labels : V → List L) :
    Indexes labels (∅ : GoMap K V) (∅ : GoMap L (Finset K)) :=
  ⟨fun l k => by simp [keysAt], fun l s hs => by cases hs⟩

theorem Tidy.removeKeys (h : Tidy index) (key : K) (labels : List L) :
    Tidy (labels.foldl (InvertedIndex.removeKey key) index) := by
  induction labels generalizing index with
  | nil => exact h
  | cons l rest ih => exact ih (h.removeKey key l)

theorem Tidy.addKeys (h : Tidy index) (key : K) (labels : List L) :
    Tidy (labels.foldl (InvertedIndex.addKey key) index) := by
  induction labels generalizing index with
  | nil => exact h
  | cons l rest ih => exact ih (h.addKey key l)

theorem Indexes.remove (h : Indexes labels stored index) (hv : stored.lookup key = some v) :
    Indexes labels (stored.erase key) ((labels v).foldl (removeKey key) index) := by
  refine ⟨fun l k => ?_, h.tidy.removeKeys key _⟩
  rw [mem_removeKeys, h.mem_iff, GoMap.lookup_erase_if]
  by_cases hk : k = key
  · subst hk
    simp [hv]
  · simp [hk]

theorem Indexes.erase_none (h : Indexes labels stored index) (hnone : stored.lookup key = none) :
    Indexes labels (stored.erase key) index := by
  refine ⟨fun l k => ?_, h.tidy⟩
  rw [h.mem_iff, GoMap.lookup_erase_if]
  by_cases hk : k = key
  · subst hk
    simp [hnone]
  · simp [hk]

theorem Indexes.add (h : Indexes labels (stored.erase key) index) (v : V) :
    Indexes labels (stored.insert key v) ((labels v).foldl (addKey key) index) := by
  refine ⟨fun l k => ?_, h.tidy.addKeys key _⟩
  rw [mem_addKeys, h.mem_iff, GoMap.lookup_insert_if, GoMap.lookup_erase_if]
  by_cases hk : k = key
  · simp [hk]
  · simp [hk]

/-- A label without keys is not in the map, so dropping it changes nothing. -/
theorem Indexes.erase_label (h : Indexes labels stored index) (hempty : keysAt index label = ∅) :
    Indexes labels stored (index.erase label) := by
  have hnone := h.tidy.lookup_eq_none.mpr hempty
  have hsame : ∀ l, (index.erase label).lookup l = index.lookup l := by
    intro l
    rw [GoMap.lookup_erase_if]
    split_ifs with hl
    · rw [hl, hnone]
    · rfl
  refine ⟨fun l k => ?_, fun l s hs => h.tidy l s (by rw [← hsame]; exact hs)⟩
  rw [← h.mem_iff, keysAt, keysAt, hsame]

end Keys

/-! ### Logs -/

def logAt (logs : GoMap L (List E)) (label : L) : List E := (logs.lookup label).getD []

def appendLog (entry : E) (logs : GoMap L (List E)) (label : L) : GoMap L (List E) :=
  logs.insert label (logAt logs label ++ [entry])

end Foundation.InvertedIndex
