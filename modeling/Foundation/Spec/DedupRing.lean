import Foundation.Lib.Reached
import Mathlib.Data.Nat.Basic
import Mathlib.Tactic

/-! Concurrent calls of `DedupRing::observe` (`ovrt-network/src/dedup.rs`), by their atomic accesses
to the slots: a load, a compare-exchange, and the store of the eviction. -/

namespace Foundation.DedupRing

def probeLimit : ℕ := 4

def emptySlot : UInt64 := 0

/-- FNV-1a, with zero folded to one. -/
def fingerprint (key : List UInt8) : UInt64 :=
  let hash :=
    key.foldl (fun hash byte => (hash ^^^ byte.toUInt64) * 0x100000001b3) 0xcbf29ce484222325
  if hash = emptySlot then 1 else hash

inductive Observation where
  | firstSeen | duplicate
deriving DecidableEq, Repr

/-- Where a call is: before the load or the compare-exchange of a probe, before the eviction, or
returned. -/
inductive Phase where
  | loading (step : ℕ)
  | claiming (step : ℕ)
  | evicting
  | returned (observation : Observation)
deriving DecidableEq, Repr

structure Ring (ι : Type) where
  slots : ℕ → UInt64 := fun _ => emptySlot
  phase : ι → Phase := fun _ => .loading 0

inductive Access (ι : Type) where
  | load (i : ι)
  | compareExchange (i : ι)
  | store (i : ι)

/-- The slot of a probe; `with_capacity` only takes powers of two, so masking is reduction by the
capacity. -/
def slotIndex (capacity : ℕ) (fp : UInt64) (step : ℕ) : ℕ := (fp.toNat % capacity + step) % capacity

def nextProbe (step : ℕ) : Phase := if step + 1 < probeLimit then .loading (step + 1) else .evicting

variable {ι : Type} [DecidableEq ι]

def Ring.goto (r : Ring ι) (i : ι) (phase : Phase) : Ring ι :=
  { r with phase := Function.update r.phase i phase }

def Ring.write (r : Ring ι) (index : ℕ) (fp : UInt64) : Ring ι :=
  { r with slots := Function.update r.slots index fp }

def exec (capacity : ℕ) (keys : ι → List UInt8) (r : Ring ι) : Access ι → Option (Ring ι)
  | .load i =>
    match r.phase i with
    | .loading step =>
      let observed := r.slots (slotIndex capacity (fingerprint (keys i)) step)
      if observed = fingerprint (keys i) then some (r.goto i (.returned .duplicate))
      else if observed ≠ emptySlot then some (r.goto i (nextProbe step))
      else some (r.goto i (.claiming step))
    | _ => none
  | .compareExchange i =>
    match r.phase i with
    | .claiming step =>
      let index := slotIndex capacity (fingerprint (keys i)) step
      if r.slots index = emptySlot then
        some ((r.write index (fingerprint (keys i))).goto i (.returned .firstSeen))
      else if r.slots index = fingerprint (keys i) then some (r.goto i (.returned .duplicate))
      else some (r.goto i (nextProbe step))
    | _ => none
  | .store i =>
    match r.phase i with
    | .evicting =>
      some ((r.write (slotIndex capacity (fingerprint (keys i)) 0) (fingerprint (keys i))).goto i
        (.returned .firstSeen))
    | _ => none

end Foundation.DedupRing
