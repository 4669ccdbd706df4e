import Foundation.Lib.PackedSlots

/-! `WideMaplet` and `CountingMaplet` of the runtime (`ovrt-core/src/maplet.rs`), with `2 ^ bits`
buckets of four slots: `bucket_index` only compiles for a power of two. -/

namespace Foundation.RuntimeMaplet

open Cuckoo

def mapletMaxKicks : ℕ := 500

def hashFingerprint32 (fp : ℕ) : UInt32 :=
  let v := UInt32.ofNat fp
  let v := (v ^^^ (v >>> 16)) * 0x7feb352d
  let v := (v ^^^ (v >>> 15)) * 0x846ca68b
  v ^^^ (v >>> 16)

def bucketIndex (bits : ℕ) (h : UInt64) : BitVec bits := h.toBitVec.setWidth bits

/-- The path of `cuckoo_displace` keeps a bucket number as a `u32`. -/
def walk (bits : ℕ) : Walk (BitVec bits) UInt64 4 :=
  xorshiftWalk bits fun b => BitVec.ofNat bits (b.toNat % 2 ^ 32)

variable {bits : ℕ}

structure Maplet (bits v : ℕ) where
  buckets : Table (BitVec bits) ℕ 4 := fun _ => 0
  count : UInt32 := 0

namespace Maplet

variable {v : ℕ}

/-- The common part of `insert_hash` and `increment_hash`; a fingerprint has the bits that the value
leaves. -/
def upsert (m : Maplet bits v) (h : UInt64) (val : ℕ) (merge : ℕ → ℕ) : Outcome ℕ × Maplet bits v :=
  let f := fingerprint (32 - v) h
  let out :=
    (packed bits v hashFingerprint32).upsert (walk bits) mapletMaxKicks true m.buckets f
    (bucketIndex bits h)
    (h ||| 1) (pack v f val) fun slot => pack v f (merge (value v slot))
  (out.1, ⟨out.2, if out.1 = .added then m.count + 1 else m.count⟩)

/-- The common part of `lookup_hash` and `count_hash`. -/
def find (m : Maplet bits v) (h : UInt64) : Option ℕ :=
  ((packed bits v hashFingerprint32).locate m.buckets (fingerprint (32 - v) h)
    (bucketIndex bits h)).map
    fun i => value v (m.buckets i)

end Maplet

abbrev WideMaplet (bits : ℕ) := Maplet bits 4

def WideMaplet.insertHash (m : WideMaplet bits) (h : UInt64) (val : UInt8) :
    Bool × WideMaplet bits :=
  let out := m.upsert h val.toNat fun _ => val.toNat
  (out.1 ≠ .cycled, out.2)

def WideMaplet.lookupHash (m : WideMaplet bits) (h : UInt64) : Option ℕ := m.find h

abbrev CountingMaplet (bits : ℕ) := Maplet bits 8

def nextCount (curr : ℕ) : ℕ := min 255 (curr + 1)

/-- What `increment_hash` finds to do. -/
def CountingMaplet.counted (m : CountingMaplet bits) (h : UInt64) :
    Outcome ℕ × CountingMaplet bits :=
  m.upsert h 1 nextCount

def CountingMaplet.incrementHash (m : CountingMaplet bits) (h : UInt64) : ℕ × CountingMaplet bits :=
  let out := m.counted h
  match out.1 with
  | .merged slot => (value 8 slot, out.2)
  | .added => (1, out.2)
  | .refused | .cycled => (255, out.2)

def CountingMaplet.countHash (m : CountingMaplet bits) (h : UInt64) : ℕ := (m.find h).getD 0

end Foundation.RuntimeMaplet
