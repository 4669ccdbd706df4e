import Foundation.Spec.Bitmap
import Foundation.Spec.Indexes
import Mathlib.Data.String.Basic

/-! A projection partition and everything that mutates it under its lock: applying
events, retiring expired records and replacing the contents by a bulk load. -/

namespace Foundation.Hermes

open Go

structure RecordEntry where
  record : DomainRecord
  source : String
  version : ℕ
  bytes : ℤ
  expiresAt : Time
deriving DecidableEq, Repr

structure TombstoneEntry where
  version : ℕ
  source : String
deriving DecidableEq, Repr

structure WatermarkFence where
  version : ℕ := 0
  refs : ℤ := 0
deriving DecidableEq, Repr

/-- `records` holds the cells whose pointer is set; a cell without an entry reads the
same as no cell at all. -/
structure PartitionRegistry where
  records : GoMap String RecordEntry := ∅
  indexes : IndexKey → IndexSnapshot := fun _ => emptyIndex
  bitmaps : BitmapIndexRegistry := BitmapIndexRegistry.newBitmapIndexRegistry
  columnarUnordered : Bool := false
  lastColumnarTime : Time := 0
  lastColumnarVer : ℕ := 0

/-- `epoch` is a `uint64` of the source, so the model is its runs of fewer than `2 ^ 64`
publications. -/
structure Partition where
  spec : NormalSpec
  epoch : ℕ := 0
  watermark : ℕ := 0
  registry : PartitionRegistry := {}
  tombstones : GoMap String TombstoneEntry := ∅
  tombOrder : List String := []
  applied : Finset String := ∅
  applyOrder : List String := []
  watermarks : GoMap String WatermarkFence := ∅
  bytes : ℤ := 0
  records : ℤ := 0

def newPartition (spec : NormalSpec) : Partition := { spec := spec }

/-- What one call reads from its surroundings: whether its `i`-th context check finds
the context done, what its `i`-th look at the clock returns, and the order of its map
iterations. `time.Now` is never the zero time. -/
structure Env where
  ctxDone : ℕ → Bool
  clock : ℕ → Time
  clock_pos : ∀ i, 0 < clock i
  order : RangeOrder String

/-- A context that stays live and a clock that stands, for runs on concrete input. -/
theorem clock_pos_of_steady (t : ℕ) : (0 : ℤ) < t + 1 := Int.lt_add_one_of_le (Int.natCast_nonneg t)

def Env.steady (t : ℕ) : Env where
  ctxDone _ := false
  clock _ := t + 1
  clock_pos _ := clock_pos_of_steady t
  order := .ascendingBy id Function.injective_id

inductive ApplyState where
  | ignored | applied | duplicate
deriving DecidableEq, Repr

structure AppliedMutation where
  operation : Operation
  record : DomainRecord
  version : ℕ
deriving DecidableEq, Repr

structure ApplyResult where
  epoch : ℕ := 0
  applied : ℕ := 0
  duplicates : ℕ := 0
  ignored : ℕ := 0
deriving DecidableEq, Repr

/-- A partition under its lock together with the publisher of the running batch. -/
structure Batch where
  part : Partition
  publisher : IndexPublisher

namespace PartitionRegistry

def trackColumnarOrder (r : PartitionRegistry) (updatedAt : Time) (version : ℕ) :
    PartitionRegistry :=
  if r.columnarUnordered then r
  else if version ≤ r.lastColumnarVer ∨ updatedAt < r.lastColumnarTime then
    { r with columnarUnordered := true }
  else { r with lastColumnarTime := updatedAt, lastColumnarVer := version }

end PartitionRegistry

def scopeOf (rec : DomainRecord) : RecordScope :=
  scopeKey rec.domain rec.collection rec.organizationID

namespace Batch

def entry (b : Batch) (key : String) : Option RecordEntry := b.part.registry.records.lookup key

def addIndexesLocked (b : Batch) (key : String) (rec : DomainRecord) (version : ℕ) : Batch :=
  { part := { b.part with registry := { b.part.registry with
      bitmaps := b.part.registry.bitmaps.add (scopeOf rec) key rec b.part.spec.toProjectionSpec } }
    publisher := (indexKeysOf b.part.spec.toProjectionSpec rec).foldl
      (fun p cell => p.add cell ⟨key, version⟩) b.publisher }

def removeIndexesLocked (b : Batch) (key : String) (rec : DomainRecord) : Batch :=
  { part := { b.part with registry := { b.part.registry with
      bitmaps :=
        b.part.registry.bitmaps.remove (scopeOf rec) key rec b.part.spec.toProjectionSpec } }
    publisher := (indexKeysOf b.part.spec.toProjectionSpec rec).foldl
      (fun p cell => p.remove cell key) b.publisher }

end Batch

namespace Partition

def blockedByNewerTombstoneLocked (p : Partition) (key : String) (version : ℕ) : Bool :=
  (p.tombstones.lookup key).any fun tomb => version < tomb.version

/-- The part of a source before its first colon, which the watermark fence is kept for. -/
def sourceWatermarkPrefix (source : String) : Option String := cutBefore ':' source

def fenced (p : Partition) (source : String) (version : ℕ) : Bool :=
  match sourceWatermarkPrefix source with
  | none => false
  | some pre => (p.watermarks.lookup pre).any fun wm => 0 < version && version ≤ wm.version

def alreadyAppliedLocked (p : Partition) (source : String) (version : ℕ) : Bool :=
  if source = "" then false else decide (source ∈ p.applied) || p.fenced source version

def countSource (watermarks : GoMap String WatermarkFence) (source : String) (version : ℕ) :
    GoMap String WatermarkFence :=
  match sourceWatermarkPrefix source with
  | none => watermarks
  | some pre =>
    let entry := (watermarks.lookup pre).getD {}
    watermarks.insert pre ⟨max entry.version version, entry.refs + 1⟩

def releaseSource (watermarks : GoMap String WatermarkFence) (source : String) :
    GoMap String WatermarkFence :=
  match sourceWatermarkPrefix source with
  | none => watermarks
  | some pre =>
    match watermarks.lookup pre with
    | none => watermarks
    | some entry =>
      if entry.refs - 1 ≤ 0 then watermarks.erase pre
      else watermarks.insert pre { entry with refs := entry.refs - 1 }

def evictApplied (bound : ℤ) :
    List String → Finset String → GoMap String WatermarkFence →
      List String × Finset String × GoMap String WatermarkFence
  | [], applied, watermarks => ([], applied, watermarks)
  | oldest :: rest, applied, watermarks =>
    if bound < (oldest :: rest).length then
      evictApplied bound rest (applied.erase oldest) (releaseSource watermarks oldest)
    else (oldest :: rest, applied, watermarks)

def rememberAppliedLocked (p : Partition) (source : String) (version : ℕ) : Partition :=
  if source = "" ∨ source ∈ p.applied then p
  else
    let (applyOrder, applied, watermarks) :=
      evictApplied p.spec.maxAppliedEvents (p.applyOrder ++ [source])
      (insert source p.applied) (countSource p.watermarks source version)
    { p with applyOrder := applyOrder, applied := applied, watermarks := watermarks }

def evictTombstones (bound : ℤ) :
    List String → GoMap String TombstoneEntry → List String × GoMap String TombstoneEntry
  | [], tombstones => ([], tombstones)
  | oldest :: rest, tombstones =>
    if bound < (oldest :: rest).length then evictTombstones bound rest (tombstones.erase oldest)
    else (oldest :: rest, tombstones)

def rememberTombstoneLocked (p : Partition) (key source : String) (version : ℕ) : Partition :=
  if p.spec.maxTombstones ≤ 0 then p
  else
    let order := if key ∈ p.tombstones then p.tombOrder else p.tombOrder ++ [key]
    let (tombOrder, tombstones) :=
      evictTombstones p.spec.maxTombstones order (p.tombstones.insert key ⟨version, source⟩)
    { p with tombOrder := tombOrder, tombstones := tombstones }

def effectiveVersion (p : Partition) (version : ℕ) : ℕ :=
  if 0 < version then version else p.epoch + 1

def observeSourceWatermark (p : Partition) (version : ℕ) : Partition :=
  { p with watermark := max p.watermark version }

def expiry (p : Partition) (now : Time) : Time := if 0 < p.spec.ttl then now + p.spec.ttl else 0

end Partition

namespace Batch

/-- The common end of an accepted upsert or patch: the old entry leaves the indexes, or
the key its tombstone, and the new entry takes its place. -/
def storeEntry (b : Batch) (key : String) (existing : Option RecordEntry) (entry : RecordEntry)
    (nextBytes : ℤ) : Batch :=
  let b := match existing with
    | some old => b.removeIndexesLocked key old.record
    | none => { b with part := { b.part with
        tombstones := b.part.tombstones.erase key, records := b.part.records + 1 } }
  let registry := b.part.registry.trackColumnarOrder entry.record.updatedAt entry.version
  let b := { b with part := { b.part with
    registry := { registry with records := registry.records.insert key entry }, bytes :=
      nextBytes } }
  b.addIndexesLocked key entry.record entry.version

/-- The bytes counter after replacing `existing` by a record of `recBytes`. -/
def nextBytes (b : Batch) (existing : Option RecordEntry) (recBytes : ℤ) : ℤ :=
  b.part.bytes + recBytes - (existing.map (·.bytes)).getD 0

def upsertLocked (now : Time) (b : Batch) (key : String) (rec : DomainRecord) (source : String)
    (version : ℕ) :
    Except HermesError (ApplyState × Batch) :=
  if b.part.blockedByNewerTombstoneLocked key version then .ok (.ignored, b)
  else if (b.entry key).any fun existing => version < existing.version then .ok (.ignored, b)
  else if b.entry key = none ∧ b.part.spec.maxRecords ≤ b.part.records then .error .projectionLimit
  else if b.part.spec.maxBytes < b.nextBytes (b.entry key) (estimateRecordBytes rec) then
    .error .projectionLimit
  else .ok (.applied, b.storeEntry key (b.entry key)
    ⟨rec, source, version, estimateRecordBytes rec, b.part.expiry now⟩
    (b.nextBytes (b.entry key) (estimateRecordBytes rec)))

/-- The record a patch makes of the stored one. -/
def patched (existing patch : DomainRecord) : DomainRecord :=
  let updatedAt := if patch.updatedAt ≠ 0 then patch.updatedAt else existing.updatedAt
  { existing with
    data := existing.data.merge patch.data
    vector := if 0 < patch.vector.length then patch.vector else existing.vector
    updatedAt := if updatedAt < existing.updatedAt then existing.updatedAt else updatedAt }

def patchLocked (now : Time) (b : Batch) (key : String) (patch : DomainRecord) (source : String)
    (version : ℕ) :
    Except HermesError (ApplyState × Batch) :=
  if b.part.blockedByNewerTombstoneLocked key version then .ok (.ignored, b)
  else match b.entry key with
    | none => .ok (.ignored, b)
    | some existing =>
      if version < existing.version then .ok (.ignored, b)
      else
        let next := patched existing.record patch
        let nextBytes := b.nextBytes (some existing) (estimateRecordBytes next)
        if b.part.spec.maxBytes < nextBytes then .error .projectionLimit
        else .ok (.applied, b.storeEntry key (some existing)
          ⟨next, source, version, estimateRecordBytes next, b.part.expiry now⟩ nextBytes)

def retireEntry (b : Batch) (key : String) (existing : RecordEntry) : Batch :=
  let b := b.removeIndexesLocked key existing.record
  { b with part := { b.part with
    registry := { b.part.registry with records := b.part.registry.records.erase key }
    records := b.part.records - 1
    bytes := b.part.bytes - existing.bytes } }

def buryKey (b : Batch) (key source : String) (version : ℕ) : Batch :=
  { b with part := b.part.rememberTombstoneLocked key source version }

def deleteLocked (b : Batch) (key source : String) (version : ℕ) : ApplyState × Batch :=
  match b.entry key with
  | some existing =>
    if version < existing.version then (.ignored, b)
    else (.applied, (b.retireEntry key existing).buryKey key source version)
  | none =>
    if b.part.blockedByNewerTombstoneLocked key version then (.ignored, b)
    else (.applied, b.buryKey key source version)

def applyMutationLocked (now : Time) (b : Batch) (key : String) (rec : DomainRecord)
    (operation : Operation) (source : String) (version : ℕ) :
    Except HermesError (ApplyState × Batch) :=
  match operation with
  | .unset | .upsert => b.upsertLocked now key rec source version
  | .patch => b.patchLocked now key rec source version
  | .delete => .ok (b.deleteLocked key source version)
  | .other _ => .error .invalidEvent

def validateRecordScope (spec : ProjectionSpec) (rec : DomainRecord) : Except HermesError Unit :=
  if rec.domain ≠ spec.domain ∨ rec.collection ≠ spec.collection then
    .error .invalidEvent else .ok ()

def normalizeEventRecord (now : Time) (event : Event) : Except HermesError DomainRecord :=
  if event.operation = .patch then normalizePatchRecord now event.record
  else normalizeRecord now event.record

def applyEventLocked (now : Time) (b : Batch) (event : Event) :
    Except HermesError (ApplyState × ℕ × Batch) :=
  let source := trimSpace event.sourceID
  let version := b.part.effectiveVersion event.version
  if b.part.alreadyAppliedLocked source version then .ok (.duplicate, 0, b)
  else do
    let rec ← normalizeEventRecord now event
    validateRecordScope b.part.spec.toProjectionSpec rec
    let (state, b) ← b.applyMutationLocked now (keyOf rec) rec event.operation source version
    return (state, version, { b with part := b.part.rememberAppliedLocked source version })

end Batch

/-- A batch under way: its counters, the event errors so far and the accepted mutations
in the order an observer sees them. -/
structure Progress where
  batch : Batch
  result : ApplyResult := {}
  errs : List HermesError := []
  accepted : List AppliedMutation := []

namespace Progress

def reject (w : Progress) (e : HermesError) : Progress :=
  { w with result := { w.result with ignored := w.result.ignored + 1 }, errs := w.errs ++ [e] }

def acceptedOperation (operation : Operation) : Operation :=
  if operation = .unset then .upsert else operation

def settle (w : Progress) (event : Event) (state : ApplyState) (version : ℕ) (b : Batch) :
    Progress :=
  match state with
  | .applied => { w with
      batch := { b with part := b.part.observeSourceWatermark version }
      result := { w.result with applied := w.result.applied + 1 }
      accepted := w.accepted ++ [⟨acceptedOperation event.operation, event.record, version⟩] }
  | .duplicate =>
    { w with batch := b, result := { w.result with duplicates := w.result.duplicates + 1 } }
  | .ignored => { w with batch := b, result := { w.result with ignored := w.result.ignored + 1 } }

/-- The event loop. An invalid or over-limit event is counted and skipped; any other
error ends the batch. -/
def applyLoop (env : Env) : ℕ → Progress → List Event → Progress
  | _, w, [] => w
  | i, w, event :: rest =>
    if env.ctxDone i then { w with errs := w.errs ++ [.contextDone] }
    else match w.batch.applyEventLocked (env.clock i) event with
      | .error e =>
        if e = .invalidEvent ∨ e = .projectionLimit then applyLoop env (i + 1) (w.reject e) rest
        else { w with errs := w.errs ++ [e] }
      | .ok (state, version, b) => applyLoop env (i + 1) (w.settle event state version b) rest

def ttlExpirySource : String := "hermes:ttl"

def expired (now : Time) (entry : RecordEntry) : Bool :=
  entry.expiresAt ≠ 0 && entry.expiresAt < now

def evictKey (now : Time) (w : Progress) (key : String) : Progress :=
  match w.batch.entry key with
  | none => w
  | some entry =>
    if expired now entry then { w with
      batch := (w.batch.retireEntry key entry).buryKey key ttlExpirySource entry.version
      accepted := w.accepted ++ [⟨.delete, entry.record, entry.version⟩] }
    else w

def evictExpiredLocked (env : Env) (w : Progress) : Progress :=
  if w.batch.part.spec.ttl ≤ 0 then w
  else (env.order.visit w.batch.part.registry.records.keys).foldl (evictKey (env.clock 0)) w

end Progress

structure ApplyOutcome where
  part : Partition
  result : ApplyResult
  errs : List HermesError
  accepted : List AppliedMutation

/-- Indexes are published, and the epoch advanced, only by a batch that applied an event. -/
def Progress.finishApplyLocked (w : Progress) : ApplyOutcome :=
  if 0 < w.result.applied then
    let p := { w.batch.part with
      registry := { w.batch.part.registry with
        indexes := w.batch.publisher.publish w.batch.part.registry.indexes }
      epoch := w.batch.part.epoch + 1 }
    ⟨p, { w.result with epoch := p.epoch }, w.errs, w.accepted⟩
  else ⟨w.batch.part, w.result, w.errs, w.accepted⟩

namespace Partition

def startBatch (env : Env) (p : Partition) : Progress :=
  Progress.evictExpiredLocked env { batch := ⟨p, ∅⟩, result := { epoch := p.epoch } }

/-- The loop checks the context from its second check on; the first is the caller's. -/
def applyBatchObserving (env : Env) (p : Partition) (events : List Event) : ApplyOutcome :=
  (Progress.applyLoop env 1 (p.startBatch env) events).finishApplyLocked

def recordEvent (sourcePrefix : String) (baseVersion : ℕ) (i : ℕ) (rec : DomainRecord) : Event where
  operation := .upsert
  record := rec
  version := if 0 < baseVersion then (baseVersion + i) % 2 ^ 64 else 0
  sourceID :=
    if sourcePrefix ≠ "" then sourcePrefix ++ ":" ++ rec.organizationID ++ ":" ++ rec.recordID
    else ""

/-- The loop over the records repeats the event loop on one upsert a record. -/
def applyRecords (env : Env) (p : Partition) (sourcePrefix : String) (baseVersion : ℕ)
    (records : List DomainRecord) : ApplyOutcome :=
  p.applyBatchObserving env (records.mapIdx (recordEvent sourcePrefix baseVersion))

/-- The fresh partition a bulk load fills, with the version the next record gets. -/
structure BulkState where
  batch : Batch
  version : ℕ := 1
  watermark : ℕ := 0
  result : ApplyResult := {}

def bulkVisit (now : Time) (s : BulkState) (rec : DomainRecord) : Except HermesError BulkState := do
  let rec ← normalizeRecord now rec
  Batch.validateRecordScope s.batch.part.spec.toProjectionSpec rec
  let (state, b) ← s.batch.upsertLocked now (keyOf rec) rec "" s.version
  if state ≠ .applied then
    return { s with batch := b, result := { s.result with ignored := s.result.ignored + 1 } }
  return ⟨b, s.version + 1, s.version, { s.result with applied := s.result.applied + 1 }⟩

def bulkLoop (env : Env) : ℕ → BulkState → List DomainRecord → Except HermesError BulkState
  | _, s, [] => .ok s
  | i, s, rec :: rest =>
    if env.ctxDone i then .error .contextDone
    else match bulkVisit (env.clock i) s rec with
      | .error e => .error e
      | .ok s => bulkLoop env (i + 1) s rest

/-- The part of `bulkLoadFrom` that runs without the lock: a fresh partition filled with
the records in the order they are visited. -/
def bulkStream (env : Env) (spec : NormalSpec) (records : List DomainRecord) :
    Except HermesError BulkState :=
  bulkLoop env 1 { batch := ⟨newPartition spec, ∅⟩ } records

def publishBulk (s : BulkState) : PartitionRegistry :=
  if 0 < s.result.applied then
    { s.batch.part.registry with
      indexes := s.batch.publisher.publish s.batch.part.registry.indexes }
  else s.batch.part.registry

/-- The part under the lock. The watermark fences of the old contents stay. -/
def bulkSwap (p : Partition) (s : BulkState) : Partition :=
  { p with
    registry := publishBulk s
    tombstones := s.batch.part.tombstones
    tombOrder := s.batch.part.tombOrder
    applied := s.batch.part.applied
    applyOrder := s.batch.part.applyOrder
    bytes := s.batch.part.bytes
    records := s.batch.part.records
    watermark := s.watermark
    epoch := p.epoch + 1 }

def bulkLoad (env : Env) (p : Partition) (records : List DomainRecord) :
    Except HermesError (Partition × ApplyResult) := do
  let s ← bulkStream env p.spec records
  return (p.bulkSwap s, { s.result with epoch := p.epoch + 1 })

end Partition

end Foundation.Hermes
