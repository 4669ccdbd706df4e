import Foundation.Spec.StateStore
import Mathlib.Logic.Function.Basic

/-! Concurrent calls on one scope of a projected store. A call is three atomic steps: its
access to the base, the reservation of a version from the shared counter and the hot apply
under the partition lock. -/

namespace Foundation.Hermes.Interleaving

/-- A read is a `GetRecord` that the hot plane does not answer. -/
inductive Kind where
  | upsert | delete | read
deriving DecidableEq, Repr

structure Request where
  kind : Kind
  record : DomainRecord
deriving DecidableEq, Repr

/-- Where a call is. After its base access it holds the record it will project; a write
the base rejects and a read that finds nothing have nothing to project. -/
inductive Phase where
  | ready
  | holding (rec : DomainRecord)
  | reserved (rec : DomainRecord) (version : ℕ)
  | returned (rec : DomainRecord) (version : ℕ)
  | missed
deriving DecidableEq, Repr

structure Shared (ι : Type) where
  base : BaseStore
  version : ℕ := 0
  part : Partition
  phase : ι → Phase := fun _ => .ready

inductive Action (ι : Type) where
  | access (i : ι) (now : Time) (pos : 0 < now)
  | reserve (i : ι)
  | apply (i : ι) (env : Env)

def access (now : Time) (pos : 0 < now) (db : BaseStore) (request : Request) : Phase × BaseStore :=
  match request.kind with
  | .upsert =>
    match db.upsertRecord now pos request.record with
    | .error _ => (.missed, db)
    | .ok (saved, db) => (.holding saved, db)
  | .delete => (.holding request.record, ProjectedRuntimeStore.deleteBase db request.record)
  | .read =>
    match db.get request.record.domain request.record.collection request.record.organizationID
      request.record.recordID with
    | none => (.missed, db)
    | some rec => (.holding rec, db)

def event (kind : Kind) (rec : DomainRecord) (version : ℕ) : Event :=
  if kind = .delete then ⟨.delete, sourceID "delete" rec version, version, rec⟩
  else ⟨.upsert, sourceID "upsert" rec version, version, rec⟩

/-- `Store.ApplyBatch` of one event on the scope's partition. -/
def hotApply (env : Env) (p : Partition) (event : Event) : Partition :=
  if env.ctxDone 0 then p else (p.applyBatchObserving env [event]).part

variable {ι : Type} [DecidableEq ι]

def exec (requests : ι → Request) (s : Shared ι) : Action ι → Option (Shared ι)
  | .access i now pos =>
    match s.phase i with
    | .ready =>
      let (phase, db) := access now pos s.base (requests i)
      some { s with base := db, phase := Function.update s.phase i phase }
    | _ => none
  | .reserve i =>
    match s.phase i with
    | .holding rec =>
      let version := (s.version + 1) % 2 ^ 64
      some { s with version := version, phase := Function.update s.phase i (.reserved rec version) }
    | _ => none
  | .apply i env =>
    match s.phase i with
    | .reserved rec version => some { s with
        part := hotApply env s.part (event (requests i).kind rec version)
        phase := Function.update s.phase i (.returned rec version) }
    | _ => none

end Foundation.Hermes.Interleaving
