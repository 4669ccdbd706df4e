import Foundation.Lib.BoundedHeap
import Foundation.Spec.Partition

/-! Reads of a partition: single records, counts, lists and pages. -/

namespace Foundation.Hermes

open Go IndexSnapshot

/-- What one read takes from its surroundings. A read looks at the clock for every entry;
it is modelled at one instant. -/
structure ReadEnv where
  ctxDone : ℕ → Bool
  now : Time
  order : RangeOrder String

def ReadEnv.steady (t : ℕ) : ReadEnv where
  ctxDone _ := false
  now := t + 1
  order := .ascendingBy id Function.injective_id

structure Fence where
  minEpoch : ℕ := 0
deriving DecidableEq, Repr

/-- Newest update first, then newest version, then ascending record id. -/
def compareColumnarEntries (a b : RecordEntry) : Ordering :=
  ((compare b.record.updatedAt a.record.updatedAt).then (compare b.version a.version)).then
    (compare a.record.recordID b.record.recordID)

/-- One page of a snapshot; a mutation is the record it upserts and its version. -/
structure Snapshot where
  mutations : List (DomainRecord × ℕ) := []
  epoch : ℕ := 0
  watermark : ℕ := 0
  nextCursor : ℕ := 0
  hasMore : Bool := false
deriving DecidableEq, Repr

namespace Partition

/-- `recordEntryPointer`: the entry of a cell unless it has expired. -/
def recordEntry (now : Time) (p : Partition) (key : String) : Option RecordEntry :=
  (p.registry.records.lookup key).filter fun entry => !Progress.expired now entry

def matching (now : Time) (p : Partition) (query : Query) (key : String) : Option RecordEntry :=
  (p.recordEntry now key).filter fun entry => recordMatches entry.record
    p.spec.toProjectionSpec query

/-- `recordForOrderEntry`: the entry an order entry still describes. -/
def recordForOrderEntry (now : Time) (p : Partition) (order : RecordOrderEntry) :
    Option RecordEntry :=
  (p.recordEntry now order.key).filter fun entry => entry.version == order.version

def checkFence (p : Partition) (fence : Fence) : Except HermesError Unit :=
  if p.epoch < fence.minEpoch then .error .fenceNotSatisfied else .ok ()

def isIndexedField (p : Partition) (field : String) : Bool := p.spec.indexedFields.contains field

def queryScope (p : Partition) (query : Query) : RecordScope :=
  scopeKey p.spec.domain p.spec.collection query.organizationID

/-- The field cells of the planned filters on indexed fields. -/
def filterCells (p : Partition) (query : Query) : List IndexKey :=
  (query.plan.planned.filter fun filter => p.isIndexedField filter.field).map fun filter =>
    .field ⟨p.queryScope query, filter⟩

def candidateIndex (p : Partition) (query : Query) : IndexSnapshot :=
  let selected := (p.filterCells query).foldl
    (fun selected cell => if len (p.registry.indexes cell) < len selected then
      p.registry.indexes cell
      else selected)
    (p.registry.indexes (.scope (p.queryScope query)))
  if len selected = 0 then emptyIndex else selected

def consider (selected : Option IndexSnapshot) (snapshot : IndexSnapshot) : Option IndexSnapshot :=
  if len snapshot = 0 then selected
  else match selected with
    | none => some snapshot
    | some best => if len snapshot < len best then some snapshot else some best

def orderedCandidateIndex (p : Partition) (query : Query) : Option IndexSnapshot :=
  (p.filterCells query).foldl (fun selected cell => consider selected (p.registry.indexes cell))
    (consider none (p.registry.indexes (.scope (p.queryScope query))))

def bitmapCandidates (p : Partition) (query : Query) : List String × Bool :=
  if query.plan.count ≤ 1 then ([], false)
  else if ¬ query.plan.planned.all (fun filter => p.isIndexedField filter.field) ∨
    query.plan.planned = [] then
    ([], false)
  else p.registry.bitmaps.queryCompoundFilters (p.queryScope query) query.plan.planned

def countKeys (found : String → Bool) (limit : ℤ) : ℤ → List String → ℤ
  | count, [] => count
  | count, key :: rest =>
    if found key then
      if 0 < limit ∧ limit ≤ count + 1 then count + 1 else countKeys found limit (count + 1) rest
    else countKeys found limit count rest

/-- The scan of `count`; the context is checked at every hit. -/
def countScan (ctxDone : ℕ → Bool) (found : String → Bool) (limit : ℤ) :
    ℕ → ℤ → List String → Except HermesError ℤ
  | _, count, [] => .ok count
  | i, count, key :: rest =>
    if found key then
      if ctxDone i then .error .contextDone
      else if limit ≤ 0 ∨ count + 1 < limit then
        countScan ctxDone found limit (i + 1) (count + 1) rest
      else .ok (count + 1)
    else countScan ctxDone found limit i count rest

def count (env : ReadEnv) (p : Partition) (query : Query) (fence : Fence) :
    Except HermesError ℤ := do
  p.checkFence fence
  let query := normalizeQuery query
  if query.organizationID = "" then throw .invalidEvent
  let found := fun key => (p.matching env.now query key).isSome
  match p.bitmapCandidates query with
  | (keys, true) => return countKeys found query.limit 0 keys
  | (_, false) =>
    countScan env.ctxDone found query.limit 1 0 (forEachKey env.order (p.candidateIndex query))

/-- The visiting loop of `collectRecordEntries`: a context check for every candidate, and
the matching ones go to the bounded selection. -/
def collectScan (ctxDone : ℕ → Bool) (limit : ℤ) :
    ℕ → List RecordEntry → List (Option RecordEntry) → Except HermesError (List RecordEntry)
  | _, entries, [] => .ok entries
  | i, entries, candidate :: rest =>
    if ctxDone i then .error .contextDone
    else match candidate with
      | none => collectScan ctxDone limit (i + 1) entries rest
      | some entry =>
        collectScan ctxDone limit (i + 1) (BoundedHeap.add compareColumnarEntries limit
          entries entry) rest

def collectOrdered (ctxDone : ℕ → Bool) (limit : ℤ) :
    ℕ → List RecordEntry → List (Option RecordEntry) → Except HermesError (List RecordEntry)
  | _, entries, [] => .ok entries
  | i, entries, candidate :: rest =>
    if limit ≤ entries.length then .ok entries
    else if ctxDone i then .error .contextDone
    else match candidate with
      | none => collectOrdered ctxDone limit (i + 1) entries rest
      | some entry =>
        collectOrdered ctxDone limit (i + 1) (BoundedHeap.add compareColumnarEntries limit
          entries entry) rest

def collectRecordEntries (env : ReadEnv) (p : Partition) (query : Query) :
    Except HermesError (List RecordEntry) :=
  let index := p.candidateIndex query
  if 0 < query.limit ∧ p.registry.columnarUnordered = false then
    collectOrdered env.ctxDone query.limit 1 [] ((forEachOrderDesc index).map fun order =>
      (p.recordForOrderEntry env.now order).filter fun entry =>
        recordMatches entry.record p.spec.toProjectionSpec query)
  else
    let keys := match p.bitmapCandidates query with
      | (keys, true) => keys
      | (_, false) => forEachKey env.order index
    collectScan env.ctxDone query.limit 1 [] (keys.map (p.matching env.now query))

def sortAndLimitEntries (entries : List RecordEntry) (query : Query) : List RecordEntry :=
  let sorted := entries.insertionSort fun a b => compareColumnarEntries a b ≠ .gt
  if 0 < query.limit ∧ query.limit < sorted.length then sorted.take query.limit.toNat else sorted

def listRecords (env : ReadEnv) (p : Partition) (query : Query) (fence : Fence) :
    Except HermesError (List DomainRecord) := do
  p.checkFence fence
  let query := normalizeQuery query
  if query.organizationID = "" then throw .invalidEvent
  let entries ← p.collectRecordEntries env query
  return (sortAndLimitEntries entries query).map (·.record)

/-- The walk of `pageMutations`: entries at or after the cursor are passed over, the first
one at or below the floor ends it. -/
def pageWalk (ctxDone : ℕ → Bool) (entryOf : RecordOrderEntry → Option RecordEntry) (limit : ℤ)
    (sinceVersion beforeVersion : ℕ) : ℕ → Snapshot → List RecordOrderEntry →
      Except HermesError Snapshot
  | _, page, [] => .ok page
  | i, page, order :: rest =>
    if 0 < beforeVersion ∧ beforeVersion ≤ order.version then
      pageWalk ctxDone entryOf limit sinceVersion beforeVersion i page rest
    else if order.version ≤ sinceVersion then .ok page
    else match entryOf order with
      | none => pageWalk ctxDone entryOf limit sinceVersion beforeVersion i page rest
      | some entry =>
        if ctxDone i then .error .contextDone
        else
          let page := { page with
            mutations := page.mutations ++ [(entry.record, entry.version)], nextCursor :=
              entry.version }
          if 0 < limit ∧ limit ≤ page.mutations.length then .ok { page with hasMore := true }
          else pageWalk ctxDone entryOf limit sinceVersion beforeVersion (i + 1) page rest

def pageMutations (env : ReadEnv) (p : Partition) (query : Query) (fence : Fence)
    (sinceVersion beforeVersion : ℕ) : Except HermesError Snapshot := do
  p.checkFence fence
  let query := normalizeQuery query
  if query.organizationID = "" then throw .invalidEvent
  let start : Snapshot := { epoch := p.epoch, watermark := p.watermark }
  match p.orderedCandidateIndex query with
  | none => return start
  | some ordered =>
    let page ← pageWalk env.ctxDone
        (fun order => (p.recordForOrderEntry env.now order).filter fun entry =>
      recordMatches entry.record p.spec.toProjectionSpec query) query.limit sinceVersion
        beforeVersion 1 start
      (forEachOrderDesc ordered)
    return { page with nextCursor := if page.hasMore then page.nextCursor else 0 }

end Partition

end Foundation.Hermes
