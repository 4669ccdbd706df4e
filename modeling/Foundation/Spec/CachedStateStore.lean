import Foundation.Lib.Reached
import Foundation.Spec.Record

/-! Concurrent `UpsertRecord` calls of a `CachedStateStore` (`database/cached_state_store.go`) on
one record that has a cache key. A call is three atomic steps: the commit to the inner store, the
read of the cached entry and the write of its own. -/

namespace Foundation.Hermes.CachedStateStore

open Go

/-- What `cachedRecordEnvelope` holds of a record that was found. -/
structure Envelope where
  version : ℤ
  data : RecordData
  createdAt : Time
  updatedAt : Time
deriving DecidableEq

def unixEpoch : Time := 62135596800 * 10 ^ 9

/-- `UnixNano`, for the dates it is defined on. -/
def unixNano (t : Time) : ℤ := t - unixEpoch

def newEnvelope (rec : DomainRecord) : Envelope :=
  { version := unixNano rec.updatedAt, data := rec.data.normalize, createdAt := rec.createdAt,
    updatedAt := rec.updatedAt }

/-- Where a call is. Behind its read it is going to write, or it has returned. -/
inductive Phase where
  | ready
  | committed (result : DomainRecord)
  | guarded (result : DomainRecord)
  | returned
deriving DecidableEq

def Phase.inFlight : Phase → Option DomainRecord
  | .committed result | .guarded result => some result
  | .ready | .returned => none

structure Shared (ι : Type) where
  latest : Option DomainRecord := none
  cached : Option Envelope := none
  phase : ι → Phase := fun _ => .ready

inductive Action (ι : Type) where
  | commit (i : ι) (updatedAt : Time)
  | get (i : ι)
  | set (i : ι)

variable {ι : Type} [DecidableEq ι]

/-- Each commit is stamped with a larger time than the one before. -/
def exec (requests : ι → DomainRecord) (s : Shared ι) : Action ι → Option (Shared ι)
  | .commit i updatedAt =>
    if s.phase i = .ready ∧ ∀ rec ∈ s.latest, rec.updatedAt < updatedAt then
      let result := { requests i with updatedAt := updatedAt }
      some { s with latest := some result, phase := Function.update s.phase i (.committed result) }
    else none
  | .get i =>
    match s.phase i with
    | .committed result =>
      let newer := s.cached.any fun current => unixNano result.updatedAt < current.version
      some { s with
        phase := Function.update s.phase i (if newer then .returned else .guarded result) }
    | _ => none
  | .set i =>
    match s.phase i with
    | .guarded result =>
      some { s with
        cached := some (newEnvelope result), phase := Function.update s.phase i .returned }
    | _ => none

end Foundation.Hermes.CachedStateStore
