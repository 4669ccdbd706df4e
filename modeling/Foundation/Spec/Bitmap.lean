import Foundation.Lib.PackedBits
import Foundation.Spec.Types

/-! The inverted bitmap index of a partition: packed bitmaps over record slots, the slot
table with its hash hint, and the compound filter query. -/

namespace Foundation.Hermes

open Go PackedBits

structure Bitmap where
  words : List Word
  n : ℕ
deriving DecidableEq, Repr

namespace Bitmap

def newBitmap (n : ℕ) : Bitmap := ⟨List.replicate ((n + 63) / 64) 0, n⟩

def grow (b : Bitmap) (newN : ℕ) : Bitmap :=
  if newN ≤ b.n then b
  else ⟨b.words ++ List.replicate ((newN + 63) / 64 - b.words.length) 0, newN⟩

def set (b : Bitmap) (i : ℕ) : Bitmap :=
  let b := if b.n ≤ i then b.grow (i + 1) else b
  { b with words := setBit b.words i }

def clear (b : Bitmap) (i : ℕ) : Bitmap :=
  if b.n ≤ i ∨ b.words.length ≤ i / 64 then b else { b with words := clearBit b.words i }

def count (b : Bitmap) : ℕ := popcountWords b.words

def andClamped (b : Bitmap) (words : List Word) : Bitmap :=
  { b with words := andWords b.words words }

def forEachSet (b : Bitmap) : List ℕ := positions b.words

end Bitmap

/-- A hint entry: a 32-bit fingerprint, zero when vacant, and a slot. -/
structure SlotMapletEntry where
  fp : UInt32 := 0
  slot : UInt32 := 0
deriving DecidableEq, Repr

structure SlotMaplet where
  entries : List SlotMapletEntry
  mask : UInt32
  count : ℤ
deriving DecidableEq, Repr

def hashKey64 (key : String) : UInt64 :=
  key.toUTF8.toList.foldl (fun h b => (h ^^^ b.toUInt64) * 1099511628211) 14695981039346656037

def fingerprint (key : String) : UInt32 := (hashKey64 key >>> 32).toUInt32 ||| 1

namespace SlotMaplet

def doubleUntil (target : ℕ) : ℕ → ℕ → ℕ
  | 0, size => size
  | fuel + 1, size => if size < target then doubleUntil target fuel (size * 2) else size

def withSize (size : ℕ) : SlotMaplet := ⟨List.replicate size {}, UInt32.ofNat (size - 1), 0⟩

def newSlotMaplet (capacity : ℕ) : SlotMaplet := withSize (doubleUntil (capacity * 2) capacity 16)

def entry (sm : SlotMaplet) (b : UInt32) : SlotMapletEntry := sm.entries.getD b.toNat {}

def put (sm : SlotMaplet) (b : UInt32) (e : SlotMapletEntry) : SlotMaplet :=
  { sm with entries := sm.entries.set b.toNat e }

def bucket1 (sm : SlotMaplet) (h : UInt32) : UInt32 := h &&& sm.mask

def bucket2 (sm : SlotMaplet) (h : UInt32) : UInt32 := (h ^^^ 0x5bd1e995) &&& sm.mask

def reinsert (sm : SlotMaplet) (e : SlotMapletEntry) : SlotMaplet :=
  if (sm.entry (sm.bucket1 e.fp)).fp = 0 then
    { sm.put (sm.bucket1 e.fp) e with count := sm.count + 1 }
  else if (sm.entry (sm.bucket2 e.fp)).fp = 0 then
    { sm.put (sm.bucket2 e.fp) e with count := sm.count + 1 }
  else sm.put (sm.bucket1 e.fp) e

def grow (sm : SlotMaplet) : SlotMaplet :=
  (sm.entries.filter (·.fp ≠ 0)).foldl reinsert (withSize (max (sm.entries.length * 2) 32))

/-- A hint counts only when the slot it names holds the key. -/
def verified (key : String) (slotToKey : List String) (e : SlotMapletEntry) : Option ℕ :=
  if e.fp = fingerprint key ∧ slotToKey[e.slot.toNat]? = some key then some e.slot.toNat else none

def lookup (sm : SlotMaplet) (key : String) (slotToKey : List String) : Option ℕ :=
  if sm.entries = [] then none
  else
    let h := (hashKey64 key).toUInt32
    (verified key slotToKey (sm.entry (sm.bucket1 h))).or
      (verified key slotToKey (sm.entry (sm.bucket2 h)))

def holds (key : String) (slot : ℕ) (e : SlotMapletEntry) : Bool :=
  e.fp == fingerprint key && e.slot.toNat == slot

def insert (sm : SlotMaplet) (key : String) (slot : ℕ) : SlotMaplet :=
  let sm := if sm.entries = [] ∨ (sm.entries.length : ℤ) ≤ sm.count * 2 then sm.grow else sm
  let h := (hashKey64 key).toUInt32
  let e : SlotMapletEntry := ⟨fingerprint key, UInt32.ofNat slot⟩
  if holds key slot (sm.entry (sm.bucket1 h)) || holds key slot (sm.entry (sm.bucket2 h)) then sm
  else if (sm.entry (sm.bucket1 h)).fp = 0 then
    { sm.put (sm.bucket1 h) e with count := sm.count + 1 }
  else if (sm.entry (sm.bucket2 h)).fp = 0 then
    { sm.put (sm.bucket2 h) e with count := sm.count + 1 }
  else sm.put (sm.bucket1 h) e

def remove (sm : SlotMaplet) (key : String) (slot : ℕ) : SlotMaplet :=
  if sm.entries = [] then sm
  else
    let h := (hashKey64 key).toUInt32
    if holds key slot (sm.entry (sm.bucket1 h)) then
      { sm.put (sm.bucket1 h) {} with count := sm.count - 1 }
    else if holds key slot (sm.entry (sm.bucket2 h)) then
      { sm.put (sm.bucket2 h) {} with count := sm.count - 1 }
    else sm

end SlotMaplet

abbrev BitmapIndexKey := QueryFilter

/-- `freeSlots` is a stack with its top at the end. -/
structure ScopeBitmapIndex where
  keyToSlot : GoMap String ℕ
  slotMaplet : SlotMaplet
  slotToKey : List String
  freeSlots : List ℕ
  inverted : GoMap BitmapIndexKey Bitmap
  saturated : Bool

def minBitmapValuesFloor : ℤ := 64
def maxBitmapValuesCeiling : ℤ := 2 ^ 20

def bitmapValueCapFor (maxBytes : ℤ) (slots : ℕ) : ℤ :=
  let slots := if slots < 1 then 1 else slots
  let maxBytes := if maxBytes < 1 then defaultMaxBytes else maxBytes
  let cap := maxBytes / 4 * 1 / ((slots + 7) / 8 : ℕ)
  if cap < minBitmapValuesFloor then minBitmapValuesFloor
  else if maxBitmapValuesCeiling < cap then maxBitmapValuesCeiling
  else cap

namespace ScopeBitmapIndex

def newScopeBitmapIndex : ScopeBitmapIndex :=
  ⟨∅, SlotMaplet.newSlotMaplet 64, [], [], ∅, false⟩

def allocateSlotLocked (s : ScopeBitmapIndex) (key : String) : ℕ × ScopeBitmapIndex :=
  match s.slotMaplet.lookup key s.slotToKey with
  | some slot => (slot, s)
  | none =>
    match s.keyToSlot.lookup key with
    | some slot => (slot, { s with slotMaplet := s.slotMaplet.insert key slot })
    | none =>
      match s.freeSlots.getLast? with
      | some slot =>
        (slot, { s with
          freeSlots := s.freeSlots.dropLast
          slotToKey := s.slotToKey.set slot key
          keyToSlot := s.keyToSlot.insert key slot
          slotMaplet := s.slotMaplet.insert key slot })
      | none =>
        (s.slotToKey.length, { s with
          slotToKey := s.slotToKey ++ [key]
          keyToSlot := s.keyToSlot.insert key s.slotToKey.length
          slotMaplet := s.slotMaplet.insert key s.slotToKey.length })

def releaseSlotLocked (s : ScopeBitmapIndex) (key : String) : Option (ℕ × ScopeBitmapIndex) :=
  match (s.slotMaplet.lookup key s.slotToKey).or (s.keyToSlot.lookup key) with
  | none => none
  | some slot =>
    some (slot, { s with
      keyToSlot := s.keyToSlot.erase key
      slotMaplet := s.slotMaplet.remove key slot
      slotToKey := s.slotToKey.set slot ""
      freeSlots := s.freeSlots ++ [slot] })

def indexValue (slot capacity : ℕ) (valueCap : ℤ) (s : ScopeBitmapIndex) (k : BitmapIndexKey) :
    ScopeBitmapIndex :=
  match s.inverted.lookup k with
  | some bm => { s with inverted := s.inverted.insert k (bm.set slot) }
  | none =>
    if valueCap ≤ s.inverted.keys.card then { s with saturated := true }
    else { s with inverted := s.inverted.insert k ((Bitmap.newBitmap capacity).set slot) }

def addRecordLocked (s : ScopeBitmapIndex) (key : String) (rec : DomainRecord)
    (spec : ProjectionSpec) :
    ScopeBitmapIndex :=
  let (slot, s) := s.allocateSlotLocked key
  let capacity := s.slotToKey.length
  (forEachIndexedField rec spec).foldl
    (indexValue slot capacity (bitmapValueCapFor spec.maxBytes capacity)) s

def unindexValue (slot : ℕ) (s : ScopeBitmapIndex) (k : BitmapIndexKey) : ScopeBitmapIndex :=
  match s.inverted.lookup k with
  | none => s
  | some bm =>
    if (bm.clear slot).count = 0 then { s with inverted := s.inverted.erase k }
    else { s with inverted := s.inverted.insert k (bm.clear slot) }

def removeRecordLocked (s : ScopeBitmapIndex) (key : String) (rec : DomainRecord)
    (spec : ProjectionSpec) :
    ScopeBitmapIndex :=
  match s.releaseSlotLocked key with
  | none => s
  | some (slot, s) => (forEachIndexedField rec spec).foldl (unindexValue slot) s

/-- The loop over the filters: the intersection so far, or the early verdict. -/
def intersectLoop (s : ScopeBitmapIndex) : Option Bitmap → List QueryFilter → Option Bitmap ⊕ Bool
  | result, [] => .inl result
  | result, f :: rest =>
    match s.inverted.lookup f with
    | none => .inr (!s.saturated)
    | some bm =>
      match result with
      | none => intersectLoop s (some bm) rest
      | some r => intersectLoop s (some (r.andClamped bm.words)) rest

/-- Candidate keys, and whether the answer covers every match. -/
def intersectFilters (s : ScopeBitmapIndex) (filters : List QueryFilter) : List String × Bool :=
  match s.intersectLoop none filters with
  | .inr coveredAll => ([], coveredAll)
  | .inl none => ([], false)
  | .inl (some result) =>
    if result.count = 0 then ([], true)
    else (result.forEachSet.filterMap fun slot =>
      match s.slotToKey[slot]? with
      | some k => if k = "" then none else some k
      | none => none, true)

end ScopeBitmapIndex

/-- The scope indexes by tenant scope; a scope never used is a new index. -/
abbrev BitmapIndexRegistry := RecordScope → ScopeBitmapIndex

namespace BitmapIndexRegistry

def newBitmapIndexRegistry : BitmapIndexRegistry := fun _ => ScopeBitmapIndex.newScopeBitmapIndex

def add (r : BitmapIndexRegistry) (scope : RecordScope) (key : String) (rec : DomainRecord)
    (spec : ProjectionSpec) : BitmapIndexRegistry :=
  Function.update r scope ((r scope).addRecordLocked key rec spec)

def remove (r : BitmapIndexRegistry) (scope : RecordScope) (key : String) (rec : DomainRecord)
    (spec : ProjectionSpec) : BitmapIndexRegistry :=
  Function.update r scope ((r scope).removeRecordLocked key rec spec)

def queryCompoundFilters (r : BitmapIndexRegistry) (scope : RecordScope)
    (filters : List QueryFilter) :
    List String × Bool :=
  (r scope).intersectFilters filters

end BitmapIndexRegistry

end Foundation.Hermes
