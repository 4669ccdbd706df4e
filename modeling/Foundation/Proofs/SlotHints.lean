import Foundation.Lib.SlotTable
import Foundation.Spec.Bitmap

/-! Slot allocation of a bitmap index against a plain slot table. A hint counts only where the slot
it names holds the key, and no two slots hold one key, so the hint table may be as stale as it
likes: a hit is what the map would have answered. -/

namespace Foundation.Hermes

open Go SlotTable

variable {sm : SlotMaplet}

namespace SlotMaplet

/-! ### The buckets -/

/-- Every bucket is inside the table. -/
def Fits (sm : SlotMaplet) : Prop := sm.mask.toNat < sm.entries.length

theorem bucket_lt (h : sm.Fits) (hash : UInt32) :
    (sm.bucket1 hash).toNat < sm.entries.length ∧ (sm.bucket2 hash).toNat < sm.entries.length := by
  have hand : ∀ x : UInt32, (x &&& sm.mask).toNat < sm.entries.length := fun x => by
    rw [UInt32.toNat_and]
    exact Nat.and_le_right.trans_lt h
  exact ⟨hand hash, hand (hash ^^^ 0x5bd1e995)⟩

theorem fits_withSize {size : ℕ} (h : 0 < size) : (withSize size).Fits := by
  show (UInt32.ofNat (size - 1)).toNat < (List.replicate size _).length
  rw [UInt32.toNat_ofNat', List.length_replicate]
  have := Nat.mod_le (size - 1) (2 ^ 32)
  omega

theorem fits_put (h : sm.Fits) (b : UInt32) (e : SlotMapletEntry) (n : ℤ) :
    ({ sm.put b e with count := n } : SlotMaplet).Fits := by
  show sm.mask.toNat < (sm.entries.set b.toNat e).length
  rw [List.length_set]
  exact h

theorem fits_reinsert (h : sm.Fits) (e : SlotMapletEntry) : (sm.reinsert e).Fits := by
  unfold reinsert
  split_ifs
  · exact fits_put h _ _ _
  · exact fits_put h _ _ _
  · exact fits_put h _ _ sm.count

theorem fits_grow (sm : SlotMaplet) : sm.grow.Fits := by
  unfold grow
  refine List.foldlRecOn (motive := Fits) _ _ (fits_withSize ?_) fun m hm e _ => fits_reinsert hm e
  omega

theorem fits_insert (h : sm.Fits) (key : String) (slot : ℕ) : (sm.insert key slot).Fits := by
  unfold insert
  have hgrown : (if sm.entries = [] ∨ (sm.entries.length : ℤ) ≤ sm.count * 2 then sm.grow
      else sm).Fits := by
    split_ifs
    · exact fits_grow sm
    · exact h
  dsimp only
  split_ifs at hgrown ⊢
  all_goals first | exact hgrown | exact fits_put hgrown _ _ _

theorem fits_remove (h : sm.Fits) (key : String) (slot : ℕ) : (sm.remove key slot).Fits := by
  unfold remove
  dsimp only
  split_ifs
  all_goals first | exact h | exact fits_put h _ _ _

/-! ### The hint -/

theorem verified_some {key : String} {keys : List String} {e : SlotMapletEntry} {slot : ℕ}
    (h : verified key keys e = some slot) : keys[slot]? = some key := by
  unfold verified at h
  split_ifs at h with hv
  exact Option.some.inj h ▸ hv.2

/-- A hint table that is asked for a key's slot, and the slots' keys to check it with. -/
abbrev Hint := SlotMaplet → String → List String → Option ℕ

def Checked (lookup : Hint) : Prop :=
  ∀ sm key keys slot, lookup sm key keys = some slot → keys[slot]? = some key

theorem checked_lookup : Checked lookup := by
  intro sm key keys slot h
  unfold lookup at h
  split_ifs at h
  rcases Option.or_eq_some_iff.mp h with h | ⟨-, h⟩
  · exact verified_some h
  · exact verified_some h

def miss : Hint := fun _ _ _ => none

theorem checked_miss : Checked miss := fun _ _ _ _ h => absurd h (by simp [miss])

end SlotMaplet

namespace ScopeBitmapIndex

open SlotMaplet

/-- `allocateSlotLocked` over any hint. -/
def allocateSlotWith (lookup : Hint) (s : ScopeBitmapIndex) (key : String) : ℕ × ScopeBitmapIndex :=
  match lookup s.slotMaplet key s.slotToKey with
  | some slot => (slot, s)
  | none =>
    match s.keyToSlot.lookup key with
    | some slot => (slot, { s with slotMaplet := s.slotMaplet.insert key slot })
    | none =>
      match s.freeSlots.getLast? with
      | some slot =>
        (slot, { s with
          freeSlots := s.freeSlots.dropLast
          slotToKey := s.slotToKey.set slot key
          keyToSlot := s.keyToSlot.insert key slot
          slotMaplet := s.slotMaplet.insert key slot })
      | none =>
        (s.slotToKey.length, { s with
          slotToKey := s.slotToKey ++ [key]
          keyToSlot := s.keyToSlot.insert key s.slotToKey.length
          slotMaplet := s.slotMaplet.insert key s.slotToKey.length })

/-- `releaseSlotLocked` over any hint. -/
def releaseSlotWith (lookup : Hint) (s : ScopeBitmapIndex) (key : String) :
    Option (ℕ × ScopeBitmapIndex) :=
  match (lookup s.slotMaplet key s.slotToKey).or (s.keyToSlot.lookup key) with
  | none => none
  | some slot =>
    some (slot, { s with
      keyToSlot := s.keyToSlot.erase key
      slotMaplet := s.slotMaplet.remove key slot
      slotToKey := s.slotToKey.set slot ""
      freeSlots := s.freeSlots ++ [slot] })

def callWith (lookup : Hint) (s : ScopeBitmapIndex) : Call "" → Option ℕ × ScopeBitmapIndex
  | .allocate key _ => ((s.allocateSlotWith lookup key).1, (s.allocateSlotWith lookup key).2)
  | .release key _ =>
    match s.releaseSlotWith lookup key with
    | none => (none, s)
    | some (slot, s) => (some slot, s)

def call (s : ScopeBitmapIndex) : Call "" → Option ℕ × ScopeBitmapIndex
  | .allocate key _ => ((s.allocateSlotLocked key).1, (s.allocateSlotLocked key).2)
  | .release key _ =>
    match s.releaseSlotLocked key with
    | none => (none, s)
    | some (slot, s) => (some slot, s)

theorem call_eq : call = callWith SlotMaplet.lookup := by
  funext s c
  cases c <;> rfl

def table (s : ScopeBitmapIndex) : SlotTable String := ⟨s.keyToSlot, s.slotToKey, s.freeSlots⟩

/-! ### One call -/

section Calls

variable {lookup : Hint} {s : ScopeBitmapIndex} {h : History String} {key : String}

theorem hit_eq (hc : Checked lookup) (hs : Sound "" h s.table) (hkey : key ≠ "") {slot : ℕ}
    (hit : lookup s.slotMaplet key s.slotToKey = some slot) : s.keyToSlot.lookup key = some slot :=
  (hs.inverse key hkey slot).mpr (hc _ _ _ _ hit)

theorem allocateSlotWith_table (hc : Checked lookup) (hs : Sound "" h s.table) (hkey : key ≠ "") :
    (s.allocateSlotWith lookup key).1 = (s.table.allocate key).1 ∧
      (s.allocateSlotWith lookup key).2.table = (s.table.allocate key).2 := by
  unfold allocateSlotWith SlotTable.allocate
  cases hit : lookup s.slotMaplet key s.slotToKey with
  | some slot =>
    rw [show s.table.keyToSlot.lookup key = some slot from hit_eq hc hs hkey hit]
    exact ⟨rfl, rfl⟩
  | none =>
    rw [show s.table.keyToSlot = s.keyToSlot from rfl,
      show s.table.freeSlots = s.freeSlots from rfl]
    cases s.keyToSlot.lookup key with
    | some slot => exact ⟨rfl, rfl⟩
    | none =>
      cases s.freeSlots.getLast? with
      | some slot => exact ⟨rfl, rfl⟩
      | none => exact ⟨rfl, rfl⟩

theorem answer_eq (hc : Checked lookup) (hs : Sound "" h s.table) (hkey : key ≠ "") :
    (lookup s.slotMaplet key s.slotToKey).or (s.keyToSlot.lookup key) = s.keyToSlot.lookup key := by
  cases hit : lookup s.slotMaplet key s.slotToKey with
  | none => exact Option.none_or
  | some slot => rw [hit_eq hc hs hkey hit, Option.some_or]

theorem callWith_table (hc : Checked lookup) (hs : Sound "" h s.table) (c : Call "") :
    (s.callWith lookup c).1 = (s.table.step c).1 ∧
      (s.callWith lookup c).2.table = (s.table.step c).2 := by
  cases c with
  | allocate key hkey =>
    obtain ⟨hslot, htable⟩ := allocateSlotWith_table hc hs hkey
    exact ⟨congrArg some hslot, htable⟩
  | release key hkey =>
    unfold callWith SlotTable.step releaseSlotWith SlotTable.release
    dsimp only
    rw [answer_eq hc hs hkey, show s.table.keyToSlot = s.keyToSlot from rfl]
    cases s.keyToSlot.lookup key with
    | none => exact ⟨rfl, rfl⟩
    | some slot => exact ⟨rfl, rfl⟩

theorem fits_callWith (hf : s.slotMaplet.Fits) (c : Call "") :
    (s.callWith lookup c).2.slotMaplet.Fits := by
  cases c with
  | allocate key hkey =>
    show (s.allocateSlotWith lookup key).2.slotMaplet.Fits
    unfold allocateSlotWith
    split
    · exact hf
    · split
      · exact fits_insert hf _ _
      · split <;> exact fits_insert hf _ _
  | release key hkey =>
    unfold callWith releaseSlotWith
    dsimp only
    cases (lookup s.slotMaplet key s.slotToKey).or (s.keyToSlot.lookup key) with
    | none => exact hf
    | some slot => exact fits_remove hf key slot

end Calls

/-! ### Whole runs -/

/-- The index holds the table, which is sound, and its hint table is in shape. -/
structure Refines (s : ScopeBitmapIndex) (t : SlotTable String) : Prop where
  table_eq : s.table = t
  fits : s.slotMaplet.Fits
  sound : ∃ h, Sound "" h t

theorem refines_new : Refines newScopeBitmapIndex empty :=
  ⟨rfl, fits_withSize (by decide), _, sound_empty ""⟩

theorem Refines.callWith {lookup : Hint} (hc : Checked lookup) {s : ScopeBitmapIndex}
    {t : SlotTable String} (c : Call "") (hr : Refines s t) :
    (s.callWith lookup c).1 = (t.step c).1 ∧ Refines (s.callWith lookup c).2 (t.step c).2 := by
  obtain ⟨rfl, hf, h, hs⟩ := hr
  obtain ⟨hres, htable⟩ := callWith_table hc hs c
  exact ⟨hres, htable, fits_callWith hf c, _, hs.step c⟩

/-- A run over a checked hint is the run of the slot table. -/
theorem run_table {lookup : Hint} (hc : Checked lookup) (calls : List (Call "")) :
    (runCalls (ScopeBitmapIndex.callWith lookup) newScopeBitmapIndex calls).1 =
      (runCalls SlotTable.step empty calls).1 ∧
      Refines (runCalls (ScopeBitmapIndex.callWith lookup) newScopeBitmapIndex calls).2
        (runCalls SlotTable.step empty calls).2 :=
  runCalls_simulates Refines (fun _ _ c hr => hr.callWith hc c) refines_new calls

/-- After any calls on keys the two directions are inverse on the live keys, the free list is the
slots given back, no bucket is outside the hint table, and the calls have returned what they return
when the hint always misses. -/
theorem slots_refine_plain_map (calls : List (Call "")) :
    Sound "" (History.after ⟨∅, ∅⟩ calls (runCalls call newScopeBitmapIndex calls).1)
        (runCalls call newScopeBitmapIndex calls).2.table ∧
      (∀ hash, ((runCalls call newScopeBitmapIndex calls).2.slotMaplet.bucket1 hash).toNat <
          (runCalls call newScopeBitmapIndex calls).2.slotMaplet.entries.length ∧
        ((runCalls call newScopeBitmapIndex calls).2.slotMaplet.bucket2 hash).toNat <
          (runCalls call newScopeBitmapIndex calls).2.slotMaplet.entries.length) ∧
      (runCalls call newScopeBitmapIndex calls).1 =
        (runCalls (callWith miss) newScopeBitmapIndex calls).1 := by
  rw [call_eq]
  obtain ⟨hres, hrefines⟩ := run_table checked_lookup calls
  obtain ⟨hmissed, -⟩ := run_table checked_miss calls
  refine ⟨?_, bucket_lt hrefines.fits, hres.trans hmissed.symm⟩
  rw [hres, hrefines.table_eq]
  exact (sound_empty "").run calls

end ScopeBitmapIndex

end Foundation.Hermes
