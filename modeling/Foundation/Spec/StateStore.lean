import Foundation.Spec.Base
import Foundation.Spec.Query
import Mathlib.Data.List.Lex

/-! The records a rebuild reads from the base store, and what the projected runtime store makes of a
write and of a query on its way to the hot one. -/

namespace Foundation.Hermes

open Go

namespace Store

/-- The records `streamRebuildRecords` visits. The query's filters arrive here as the
record filters they are translated to. -/
def streamRebuildRecords (o : RangeOrder RecordIdentity) (source : BaseStore)
    (spec : ProjectionSpec) (organizationID : String) (query : RecordQuery) :
    Except HermesError (List DomainRecord) :=
  let organizationID := trimSpace organizationID
  if organizationID = "" then .error .invalidEvent
  else .ok (source.forEachRecord o spec.domain spec.collection organizationID
    { query with limit := if query.limit ≤ 0 then spec.maxRecords else query.limit })

end Store

def defaultStateMaxRecords : ℤ := 10000
def defaultStateMaxBytes : ℤ := 16 * 2 ^ 20
def defaultStateIndexedFields : List String := ["state", "status", "type", "kind", "bucket"]

def sourceID (operation : String) (rec : DomainRecord) (version : ℕ) : String :=
  "state" ++ ":" ++ operation ++ ":" ++ rec.domain ++ ":" ++ rec.collection ++ ":" ++
    rec.organizationID ++
    ":" ++ rec.recordID ++ ":" ++ Nat.repr version

/-- What one call on the projected store takes from its surroundings: those of its `i`-th
hot write and of its hot reads, the times the base stamps its `i`-th write with, the
orders of its map iterations, the store's `now` and whether the context counts as
cancelled when a failed warm is recorded. -/
structure CallEnv where
  hot : ℕ → Env
  read : ReadEnv
  baseClock : ℕ → Time
  baseClock_pos : ∀ i, 0 < baseClock i
  baseOrder : RangeOrder RecordIdentity
  groupOrder : RangeOrder String
  now : Time
  canceled : Bool

/-- A live context and a standing clock throughout the call. -/
def CallEnv.steady (t : ℕ) : CallEnv where
  hot _ := .steady t
  read := .steady t
  baseClock _ := t + 1
  baseClock_pos _ := clock_pos_of_steady t
  baseOrder := .ascendingBy (fun id => [id.domain, id.collection, id.organizationID, id.recordID])
    fun a b h => by
      simp only [List.cons.injEq] at h
      exact RecordIdentity.mk.injEq .. ▸ ⟨h.1, h.2.1, h.2.2.1, h.2.2.2.1⟩
  groupOrder := .ascendingBy id Function.injective_id
  now := t + 1
  canceled := false

namespace ProjectedRuntimeStore

def deleteBase (db : BaseStore) (rec : DomainRecord) : BaseStore :=
  db.deleteRecord rec.domain rec.collection rec.organizationID rec.recordID

/-- The planned filters of a record query: blank fields and values without a scalar form
are passed over. -/
def plannedFilters (filters : List RecordFilter) : List QueryFilter :=
  filters.filterMap fun filter =>
    if trimSpace filter.field = "" then none
    else filter.value.scalarIndex.map fun (kind, text) => ⟨trimSpace filter.field, kind, text⟩

def queryWithFilters (organizationID : String) (limit : ℤ) (filters : List QueryFilter) : Query :=
  match filters.insertionSort fun a b => a.field ≤ b.field with
  | [] => { organizationID := organizationID, limit := limit }
  | first :: rest =>
    { organizationID := organizationID, limit := limit
      plan :=
        { first := first, filters := if rest = [] then [] else first :: rest,
          count := rest.length + 1 } }

def queryFromRecordQuery (organizationID : String) (query : RecordQuery) : Query :=
  queryWithFilters organizationID query.limit (plannedFilters query.filters)

end ProjectedRuntimeStore

/-! ### A scope for runs on concrete input -/

def order (id state : String) : DomainRecord where
  domain := "orders"
  collection := "order"
  organizationID := "acme"
  recordID := id
  data := [⟨"state", stringValue state⟩]

/-- The spec the scope of `order` is registered with under the default options. -/
def ordersSpec : NormalSpec where
  name := "foundation_state:orders:order:acme"
  domain := "orders"
  collection := "order"
  indexedFields := defaultStateIndexedFields
  maxRecords := defaultStateMaxRecords
  maxBytes := defaultStateMaxBytes
  maxIndexes := 5
  maxTombstones := 10000
  maxAppliedEvents := 20000
  domain_trim := by decide
  collection_trim := by decide
  domain_ne := by decide
  collection_ne := by decide
  indexed_nodup := by decide
  maxRecords_pos := by decide
  maxBytes_pos := by decide
  maxTombstones_pos := by decide
  maxAppliedEvents_pos := by decide

end Foundation.Hermes
