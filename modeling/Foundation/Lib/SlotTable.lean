import Foundation.Lib.GoMap

/-! Slots for keys: a key keeps its slot until it is released, and released slots are given out
again, the last released first. A vacant slot holds a blank, which is no key. -/

namespace Foundation

/-! ### Runs of calls -/

section Runs

variable {σ τ κ ρ : Type}

/-- The results of a list of calls, and the state they lead to. -/
def runCalls (step : σ → κ → ρ × σ) : σ → List κ → List ρ × σ
  | s, [] => ([], s)
  | s, c :: cs =>
    let out := step s c
    let rest := runCalls step out.2 cs
    (out.1 :: rest.1, rest.2)

/-- A relation that every call keeps, with equal results, gives equal results throughout. -/
theorem runCalls_simulates {step : σ → κ → ρ × σ} {step' : τ → κ → ρ × τ} (R : σ → τ → Prop)
    (h : ∀ s t c, R s t → (step s c).1 = (step' t c).1 ∧ R (step s c).2 (step' t c).2) {s : σ}
    {t : τ} (hst : R s t) (calls : List κ) :
    (runCalls step s calls).1 = (runCalls step' t calls).1 ∧
      R (runCalls step s calls).2 (runCalls step' t calls).2 := by
  induction calls generalizing s t with
  | nil => exact ⟨rfl, hst⟩
  | cons c cs ih =>
    obtain ⟨hres, hnext⟩ := h s t c hst
    obtain ⟨hrest, hend⟩ := ih hnext
    exact ⟨congrArg₂ List.cons hres hrest, hend⟩

end Runs

structure SlotTable (α : Type) where
  keyToSlot : GoMap α ℕ
  slotToKey : List α
  freeSlots : List ℕ

namespace SlotTable

variable {α : Type} [DecidableEq α]

def allocate (t : SlotTable α) (key : α) : ℕ × SlotTable α :=
  match t.keyToSlot.lookup key with
  | some slot => (slot, t)
  | none =>
    match t.freeSlots.getLast? with
    | some slot =>
      (slot, ⟨t.keyToSlot.insert key slot, t.slotToKey.set slot key, t.freeSlots.dropLast⟩)
    | none =>
      (t.slotToKey.length,
        ⟨t.keyToSlot.insert key t.slotToKey.length, t.slotToKey ++ [key], t.freeSlots⟩)

def release (blank : α) (t : SlotTable α) (key : α) : Option ℕ × SlotTable α :=
  match t.keyToSlot.lookup key with
  | none => (none, t)
  | some slot =>
    (some slot, ⟨t.keyToSlot.erase key, t.slotToKey.set slot blank, t.freeSlots ++ [slot]⟩)

inductive Call (blank : α) where
  | allocate (key : α) (hkey : key ≠ blank)
  | release (key : α) (hkey : key ≠ blank)

def step {blank : α} (t : SlotTable α) : Call blank → Option ℕ × SlotTable α
  | .allocate key _ => ((t.allocate key).1, (t.allocate key).2)
  | .release key _ => t.release blank key

/-- What the calls so far come to: the keys with a slot and the slots given back. -/
structure History (α : Type) where
  live : Finset α
  released : Finset ℕ

def History.record {blank : α} (h : History α) : Call blank → Option ℕ → History α
  | .allocate key _, some slot => ⟨insert key h.live, h.released.erase slot⟩
  | .release key _, some slot => ⟨h.live.erase key, insert slot h.released⟩
  | _, none => h

def History.after {blank : α} (h : History α) : List (Call blank) → List (Option ℕ) → History α
  | c :: cs, r :: rs => (h.record c r).after cs rs
  | _, _ => h

/-- The two directions agree on the live keys, and the free list is the slots given back. -/
structure Sound (blank : α) (h : History α) (t : SlotTable α) : Prop where
  live : t.keyToSlot.keys = h.live
  blank_dead : blank ∉ h.live
  inverse : ∀ key, key ≠ blank → ∀ slot, t.keyToSlot.lookup key = some slot ↔
    t.slotToKey[slot]? = some key
  vacant : ∀ slot, slot ∈ t.freeSlots ↔ t.slotToKey[slot]? = some blank
  released : t.freeSlots.toFinset = h.released
  nodup : t.freeSlots.Nodup

def empty : SlotTable α := ⟨∅, [], []⟩

theorem sound_empty (blank : α) : Sound blank ⟨∅, ∅⟩ (empty : SlotTable α) where
  live := by simp [empty]
  blank_dead := Finset.notMem_empty blank
  inverse key _ slot := by simp [empty]
  vacant slot := by simp [empty]
  released := rfl
  nodup := List.nodup_nil

variable {slot : ℕ}

omit [DecidableEq α] in
theorem getElem?_set_if {l : List α} (hlt : slot < l.length) (x : α) (i : ℕ) :
    (l.set slot x)[i]? = if i = slot then some x else l[i]? := by
  rw [List.getElem?_set]
  split_ifs <;> grind

omit [DecidableEq α] in
theorem getElem?_concat_if (l : List α) (x : α) (i : ℕ) :
    (l ++ [x])[i]? = if i = l.length then some x else l[i]? := by
  grind

section Steps

variable {blank key : α} {h : History α} {t : SlotTable α}

theorem Sound.keep (hs : Sound blank h t) (hkey : key ≠ blank) {slot : ℕ}
    (hl : t.keyToSlot.lookup key = some slot) :
    Sound blank ⟨insert key h.live, h.released.erase slot⟩ t := by
  have hmem : key ∈ h.live := hs.live ▸ (GoMap.mem_keys_iff _ _).mpr ⟨slot, hl⟩
  have hfree : slot ∉ h.released := by
    rw [← hs.released, List.mem_toFinset, hs.vacant, (hs.inverse key hkey slot).mp hl]
    exact fun heq => hkey (Option.some.inj heq)
  rw [Finset.insert_eq_self.mpr hmem, Finset.erase_eq_self.mpr hfree]
  exact hs

theorem Sound.reuse (hs : Sound blank h t) (hkey : key ≠ blank) (hl : t.keyToSlot.lookup key = none)
    (hlast : t.freeSlots.getLast? = some slot) :
    Sound blank ⟨insert key h.live, h.released.erase slot⟩
      ⟨t.keyToSlot.insert key slot, t.slotToKey.set slot key, t.freeSlots.dropLast⟩ := by
  obtain ⟨init, hinit⟩ := List.getLast?_eq_some_iff.mp hlast
  have hslot : t.slotToKey[slot]? = some blank := (hs.vacant slot).mp (by simp [hinit])
  have hlt : slot < t.slotToKey.length := (List.getElem?_eq_some_iff.mp hslot).1
  have hnodup := hs.nodup
  rw [hinit, List.nodup_append] at hnodup
  have hnew : slot ∉ init := fun hmem => hnodup.2.2 slot hmem slot List.mem_cons_self rfl
  have hmem : ∀ i, i ∈ init ↔ i ∈ t.freeSlots ∧ i ≠ slot := fun i => by
    rw [hinit, List.mem_append, List.mem_singleton]
    constructor
    · exact fun hi => ⟨.inl hi, fun heq => hnew (heq ▸ hi)⟩
    · rintro ⟨hi | hi, hne⟩
      · exact hi
      · exact absurd hi hne
  have hdrop : t.freeSlots.dropLast = init := by rw [hinit, List.dropLast_concat]
  refine ⟨?_, ?_, fun k hk i => ?_, fun i => ?_, ?_, hdrop ▸ hnodup.1⟩
  · rw [GoMap.keys_insert, hs.live]
  · rw [Finset.mem_insert, not_or]
    exact ⟨hkey.symm, hs.blank_dead⟩
  · rw [GoMap.lookup_insert_if, getElem?_set_if hlt]
    have hinv := hs.inverse k hk i
    grind
  · rw [hdrop, hmem, getElem?_set_if hlt, hs.vacant]
    grind
  · rw [← hs.released]
    ext i
    rw [List.mem_toFinset, hdrop, hmem, Finset.mem_erase, List.mem_toFinset, and_comm]

theorem Sound.extend (hs : Sound blank h t) (hkey : key ≠ blank)
    (hl : t.keyToSlot.lookup key = none) :
    Sound blank ⟨insert key h.live, h.released.erase t.slotToKey.length⟩
      ⟨t.keyToSlot.insert key t.slotToKey.length, t.slotToKey ++ [key], t.freeSlots⟩ := by
  have hnone : t.slotToKey[t.slotToKey.length]? = none := List.getElem?_eq_none le_rfl
  have hout : t.slotToKey.length ∉ h.released := by
    rw [← hs.released, List.mem_toFinset, hs.vacant, hnone]
    simp
  refine ⟨?_, ?_, fun k hk i => ?_, fun i => ?_, ?_, hs.nodup⟩
  · rw [GoMap.keys_insert, hs.live]
  · rw [Finset.mem_insert, not_or]
    exact ⟨hkey.symm, hs.blank_dead⟩
  · rw [GoMap.lookup_insert_if, getElem?_concat_if]
    have hinv := hs.inverse k hk i
    grind
  · rw [getElem?_concat_if, hs.vacant]
    grind
  · rw [hs.released, Finset.erase_eq_self.mpr hout]

theorem Sound.allocate (hs : Sound blank h t) (hkey : key ≠ blank) :
    Sound blank ⟨insert key h.live, h.released.erase (t.allocate key).1⟩ (t.allocate key).2 := by
  unfold SlotTable.allocate
  cases hl : t.keyToSlot.lookup key with
  | some slot => exact hs.keep hkey hl
  | none =>
    cases hlast : t.freeSlots.getLast? with
    | some slot => exact hs.reuse hkey hl hlast
    | none => exact hs.extend hkey hl

theorem Sound.free (hs : Sound blank h t) (hkey : key ≠ blank)
    (hl : t.keyToSlot.lookup key = some slot) :
    Sound blank ⟨h.live.erase key, insert slot h.released⟩
      ⟨t.keyToSlot.erase key, t.slotToKey.set slot blank, t.freeSlots ++ [slot]⟩ := by
  have hslot := (hs.inverse key hkey slot).mp hl
  have hlt : slot < t.slotToKey.length := (List.getElem?_eq_some_iff.mp hslot).1
  have hused : slot ∉ t.freeSlots := by
    rw [hs.vacant, hslot]
    exact fun heq => hkey (Option.some.inj heq)
  refine ⟨?_, ?_, fun k hk i => ?_, fun i => ?_, ?_, ?_⟩
  · ext k
    rw [← hs.live, Finset.mem_erase, GoMap.mem_keys_iff, GoMap.mem_keys_iff, GoMap.lookup_erase_if]
    by_cases hki : k = key <;> simp [hki]
  · exact fun hmem => hs.blank_dead (Finset.mem_of_mem_erase hmem)
  · rw [GoMap.lookup_erase_if, getElem?_set_if hlt]
    have hinv := hs.inverse k hk i
    have hkeyinv := hs.inverse key hkey i
    grind
  · rw [List.mem_append, List.mem_singleton, getElem?_set_if hlt, hs.vacant]
    grind
  · rw [← hs.released]
    ext i
    simp only [List.toFinset_append, List.mem_toFinset, Finset.mem_union, Finset.mem_insert,
      List.mem_singleton, or_comm]
  · rw [List.nodup_append]
    exact ⟨hs.nodup, List.nodup_singleton slot,
      fun a ha b hb heq => hused (List.mem_singleton.mp hb ▸ heq ▸ ha)⟩

theorem Sound.step (hs : Sound blank h t) (c : Call blank) :
    Sound blank (h.record c (t.step c).1) (t.step c).2 := by
  cases c with
  | allocate key hkey => exact hs.allocate hkey
  | release key hkey =>
    show Sound blank (h.record (.release key hkey) (t.release blank key).1) (t.release blank key).2
    unfold SlotTable.release
    cases hl : t.keyToSlot.lookup key with
    | none => exact hs
    | some slot => exact hs.free hkey hl

theorem Sound.run (hs : Sound blank h t) (calls : List (Call blank)) :
    Sound blank (h.after calls (runCalls SlotTable.step t calls).1)
      (runCalls SlotTable.step t calls).2 := by
  induction calls generalizing h t with
  | nil => exact hs
  | cons c cs ih => exact ih (hs.step c)

end Steps

end SlotTable

end Foundation
