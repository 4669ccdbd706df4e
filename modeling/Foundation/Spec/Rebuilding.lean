import Foundation.Spec.StateStore

/-! `Store.Rebuild` beside `Store.ApplyBatch` on one projection. A rebuild reads its source
without the partition lock and takes the lock only to swap the loaded contents in. The
source is written at any time; whoever applies an event has written its record there first. -/

namespace Foundation.Hermes.Rebuilding

open Go

structure Write where
  id : RecordIdentity
  value : Option DomainRecord
deriving DecidableEq, Repr

structure Request where
  order : RangeOrder RecordIdentity
  organizationID : String
  query : RecordQuery

/-- A rebuild between its stream and its swap: what it loaded, and the source it read,
which had taken `reads` writes by then. -/
structure Streamed where
  request : Request
  source : BaseStore
  reads : ℕ
  bulk : Partition.BulkState

/-- An event reported as applied is kept with the position of its source write. -/
structure Shared where
  source : BaseStore
  writes : List Write := []
  part : Partition
  reported : List (Event × ℕ) := []
  streamed : Option Streamed := none

inductive Action where
  | put (now : Time) (pos : 0 < now) (rec : DomainRecord)
  | remove (rec : DomainRecord)
  | apply (env : Env) (events : List (Event × ℕ))
  | stream (env : Env) (request : Request)
  | swap

def Write.announcedBy (write : Write) (event : Event) : Bool :=
  write.id == identityOf event.record &&
    match event.operation with
    | .delete => write.value == none
    -- A patch carries only the fields it changes.
    | .patch => write.value.isSome
    | _ => write.value == some event.record

def reportedOf (accepted : List AppliedMutation) (events : List (Event × ℕ)) : List (Event × ℕ) :=
  events.filter fun e => accepted.any fun m =>
    m.operation == Progress.acceptedOperation e.1.operation && m.record == e.1.record

/-- `ApplyBatch` on the partition. The mutations accepted before the first event are
expiries. -/
def applyBatch (env : Env) (s : Shared) (events : List (Event × ℕ)) : Shared :=
  if env.ctxDone 0 then s
  else
    let out := s.part.applyBatchObserving env (events.map Prod.fst)
    { s with
      part := out.part
      reported :=
        s.reported ++ reportedOf (out.accepted.drop (s.part.startBatch env).accepted.length) events
        }

def load (env : Env) (spec : NormalSpec) (source : BaseStore) (request : Request) :
    Except HermesError Partition.BulkState := do
  if env.ctxDone 0 then throw .contextDone
  let records ← Store.streamRebuildRecords request.order source spec.toProjectionSpec
      request.organizationID
    request.query
  Partition.bulkStream env spec records

/-- One step, if it can be taken. A rebuild that fails leaves everything as it was. -/
def exec (s : Shared) : Action → Option Shared
  | .put now pos rec =>
    match s.source.upsertRecord now pos rec with
    | .error _ => none
    | .ok (saved, db) =>
      some { s with source := db, writes := s.writes ++ [⟨identityOf rec, some saved⟩] }
  | .remove rec => some { s with
      source := s.source.deleteRecord rec.domain rec.collection rec.organizationID rec.recordID
      writes := s.writes ++ [⟨identityOf rec, none⟩] }
  | .apply env events =>
    if events.all fun e => s.writes[e.2]?.any (Write.announcedBy · e.1) then
      some (applyBatch env s events)
    else none
  | .stream env request =>
    if s.streamed.isSome then none
    else match load env s.part.spec s.source request with
      | .error _ => some s
      | .ok bulk => some { s with streamed := some ⟨request, s.source, s.writes.length, bulk⟩ }
  | .swap => s.streamed.map fun t => { s with part := s.part.bulkSwap t.bulk, streamed := none }

end Foundation.Hermes.Rebuilding
