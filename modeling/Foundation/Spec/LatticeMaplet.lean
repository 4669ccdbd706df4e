import Foundation.Lib.PackedSlots

/-! `LatticeMaplet` and `ScalableLatticeMaplet` (`metadata/maplet.go`). A table has `2 ^ bits`
buckets of four slots, and masking a bucket number takes its low bits. -/

namespace Foundation.LatticeMaplet

open Cuckoo

def latticeMaxValue : ℕ := 15

def latticeMaxCuckooKicks : ℕ := 500

structure Maplet (bits : ℕ) where
  count : ℕ := 0
  maxCount : ℕ
  buckets : Table (BitVec bits) ℕ 4 := fun _ => 0

/-- The doubling of `numBuckets`. To divide by `0.85` is to multiply by `20 / 17`; no number of
slots is so near to `minSlots` that the rounding of the floats matters. At `2 ^ 30` buckets the
number of slots is zero as a `uint32`, and the loop does not end. -/
def bucketBits (expectedKeys : ℤ) : Option ℕ :=
  ((List.range 30).find? fun k => ¬ 17 * (4 * 2 ^ k) < 20 * expectedKeys).map (max 3)

def newLatticeMaplet (expectedKeys : ℤ) : Option (Σ bits, Maplet bits) :=
  (bucketBits expectedKeys).map fun bits => ⟨bits, { maxCount := 4 * 2 ^ bits * 9 / 10 }⟩

def mapletHash64 (key : List UInt8) : UInt64 :=
  let h := key.foldl (fun h byte => (h ^^^ byte.toUInt64) * 0x100000001b3) 0xcbf29ce484222325
  let h := (h ^^^ (h >>> 30)) * 0xbf58476d1ce4e5b9
  let h := (h ^^^ (h >>> 27)) * 0x94d049bb133111eb
  h ^^^ (h >>> 31)

def hash16 (v : ℕ) : UInt32 :=
  let h := UInt32.ofNat v * 0x517cc1b7
  h ^^^ (h >>> 16)

def fp (h : UInt64) : ℕ := fingerprint 12 h

def firstBucket (bits : ℕ) (h : UInt64) : BitVec bits := h.toUInt32.toBitVec.setWidth bits

abbrev scheme (bits : ℕ) : Scheme (BitVec bits) ℕ ℕ := packed bits 4 hash16

def latticeJoin (a b : ℕ) : ℕ := if a > b then a else b

namespace Maplet

variable {bits : ℕ}

def insert (m : Maplet bits) (key : List UInt8) (val : UInt8) : Option String × Maplet bits :=
  if val.toNat > latticeMaxValue then
    (some ("metadata: value " ++ toString val.toNat ++ " exceeds max 4-bit value " ++
      toString latticeMaxValue), m)
  else
    let h := mapletHash64 key
    let out :=
      (scheme bits).upsert (xorshiftWalk bits id) latticeMaxCuckooKicks (m.count < m.maxCount)
      m.buckets (fp h)
      (firstBucket bits h) (h ||| 1) (pack 4 (fp h) val.toNat)
      fun slot => pack 4 (fp h) (latticeJoin (value 4 slot) val.toNat)
    match out.1 with
    | .merged _ => (none, { m with buckets := out.2 })
    | .added => (none, { m with buckets := out.2, count := m.count + 1 })
    | .refused => (some "metadata: maplet capacity reached", { m with buckets := out.2 })
    | .cycled =>
      (some "metadata: maplet insertion failed: cuckoo cycle detected (table unchanged)",
        { m with buckets := out.2 })

def lookup (m : Maplet bits) (key : List UInt8) : Option ℕ :=
  let h := mapletHash64 key
  ((scheme bits).locate m.buckets (fp h) (firstBucket bits h)).map fun i => value 4 (m.buckets i)

end Maplet

/-- The layers, the last one apart and the others from the newest to the oldest. -/
structure Scalable where
  last : Σ bits, Maplet bits
  older : List (Σ bits, Maplet bits) := []

def newScalableLatticeMaplet (initialCapacity : ℤ) : Option Scalable :=
  (newLatticeMaplet initialCapacity).map fun layer => { last := layer }

namespace Scalable

/-- `Insert`, unless the allocation of a layer does not end. -/
def insert (s : Scalable) (key : List UInt8) (val : UInt8) : Option (Option String × Scalable) :=
  let out := s.last.2.insert key val
  if out.1 = none then some (none, { s with last := ⟨s.last.1, out.2⟩ })
  else (newLatticeMaplet (2 * out.2.maxCount)).map fun layer =>
    let next := layer.2.insert key val
    if next.1 = none then (none, ⟨⟨layer.1, next.2⟩, ⟨s.last.1, out.2⟩ :: s.older⟩)
    else (next.1, { s with last := ⟨s.last.1, out.2⟩ })

def lookup (s : Scalable) (key : List UInt8) : Option ℕ :=
  ((s.last :: s.older).filterMap fun layer => layer.2.lookup key).foldl
    (fun best val => some (if val > best.getD 0 then val else best.getD 0)) none

end Scalable

end Foundation.LatticeMaplet
