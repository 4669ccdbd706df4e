import Foundation.Lib.GoMap
import Foundation.Spec.Record

/-! Projection specs, events, queries and record keys of the hot plane. -/

namespace Foundation.Hermes

open Go

inductive HermesError where
  | projectionNotFound | projectionLimit | invalidProjection | invalidEvent | fenceNotSatisfied
  | contextDone
deriving DecidableEq, Repr

def defaultMaxBytes : ℤ := 64 * 2 ^ 20

structure ProjectionSpec where
  name : String
  domain : String
  collection : String
  indexedFields : List String := []
  maxRecords : ℤ := 0
  maxBytes : ℤ := 0
  maxIndexes : ℤ := 0
  maxTombstones : ℤ := 0
  maxAppliedEvents : ℤ := 0
  ttl : ℤ := 0
deriving DecidableEq, Repr

/-- A spec as `normalizeSpec` returns it. -/
structure NormalSpec extends ProjectionSpec where
  domain_trim : trimSpace domain = domain
  collection_trim : trimSpace collection = collection
  domain_ne : domain ≠ ""
  collection_ne : collection ≠ ""
  indexed_nodup : indexedFields.Nodup
  maxRecords_pos : 0 < maxRecords
  maxBytes_pos : 0 < maxBytes
  maxTombstones_pos : 0 < maxTombstones
  maxAppliedEvents_pos : 0 < maxAppliedEvents

def orDefault (value default : ℤ) : ℤ := if value ≤ 0 then default else value

/-- An event's operation; the empty operation is an upsert, and text the hot plane
does not know is rejected. -/
inductive Operation where
  | unset | upsert | patch | delete
  | other (text : String)
deriving DecidableEq, Repr

structure Event where
  operation : Operation
  sourceID : String := ""
  version : ℕ := 0
  record : DomainRecord
deriving DecidableEq, Repr

structure QueryFilter where
  field : String
  kind : Char
  value : String
deriving DecidableEq, Repr

structure QueryPlan where
  first : QueryFilter := ⟨"", ' ', ""⟩
  filters : List QueryFilter := []
  count : ℕ := 0
deriving DecidableEq, Repr

structure Query where
  organizationID : String
  limit : ℤ := 0
  plan : QueryPlan := {}
deriving DecidableEq, Repr

/-- The filters `forEachPlannedFilter` visits, in order. -/
def QueryPlan.planned (plan : QueryPlan) : List QueryFilter :=
  match plan.count with
  | 0 => []
  | 1 => [plan.first]
  | _ => plan.filters

structure RecordScope where
  domain : String
  collection : String
  organizationID : String
deriving DecidableEq, Repr

def scopeKey (domain collection organizationID : String) : RecordScope :=
  ⟨trimSpace domain, trimSpace collection, trimSpace organizationID⟩

def hasKeySeparator (value : String) : Bool := value.toList.any fun c => c == '|' || c == '\\'

def escapeChar (c : Char) : List Char :=
  if c = '\\' then ['\\', '\\'] else if c = '|' then ['\\', '|'] else [c]

def escapeKeyComponent (value : String) : String :=
  let value := trimSpace value
  if hasKeySeparator value then String.ofList (value.toList.flatMap escapeChar) else value

def recordKeyFromEscaped (domain collection organizationID recordID : String) : String :=
  domain ++ "|" ++ collection ++ "|" ++ organizationID ++ "|" ++ recordID

def keyComponent (value : String) : String :=
  let value := trimSpace value
  if hasKeySeparator value then escapeKeyComponent value else value

def recordKey (domain collection organizationID recordID : String) : String :=
  recordKeyFromEscaped (keyComponent domain) (keyComponent collection) (keyComponent organizationID)
    (keyComponent recordID)

def keyOf (rec : DomainRecord) : String :=
  recordKey rec.domain rec.collection rec.organizationID rec.recordID

/-- The identity part of `normalizeRecord` and `normalizePatchRecord`. -/
def normalizeIdentity (rec : DomainRecord) : Except HermesError DomainRecord :=
  let domain := trimSpace rec.domain
  let collection := trimSpace rec.collection
  let organizationID := trimSpace rec.organizationID
  let recordID := trimSpace rec.recordID
  if domain = "" ∨ collection = "" ∨ organizationID = "" ∨ recordID = "" then .error .invalidEvent
  else .ok { rec with
    domain := domain, collection := collection, organizationID :=
      organizationID, recordID := recordID
    data := normalizeRecordDataWithOrganization rec.data organizationID }

def orNow (t now : Time) : Time := if t = 0 then now else t

def normalizeRecord (now : Time) (rec : DomainRecord) : Except HermesError DomainRecord := do
  let rec ← normalizeIdentity rec
  return { rec with createdAt := orNow rec.createdAt now, updatedAt := orNow rec.updatedAt now }

def normalizePatchRecord (now : Time) (rec : DomainRecord) : Except HermesError DomainRecord := do
  let rec ← normalizeIdentity rec
  return { rec with updatedAt := orNow rec.updatedAt now }

def matchesFilter (data : RecordData) (filter : QueryFilter) : Bool :=
  match data.get filter.field with
  | none => false
  | some actual => actual.scalarIndex == some (filter.kind, filter.value)

def matchesPlannedFilters (data : RecordData) (plan : QueryPlan) : Bool :=
  plan.planned.all (matchesFilter data)

def recordMatches (rec : DomainRecord) (spec : ProjectionSpec) (query : Query) : Bool :=
  if rec.domain ≠ spec.domain ∨ rec.collection ≠ spec.collection then false
  else if trimSpace query.organizationID ≠ "" ∧
    rec.organizationID ≠ trimSpace query.organizationID then false
  else if query.plan.count > 0 then matchesPlannedFilters rec.data query.plan
  else true

def normalizeQuery (query : Query) : Query :=
  { query with organizationID := trimSpace query.organizationID }

/-- The indexed scalar fields of a record, in the order `forEachIndexedField` visits them. -/
def forEachIndexedField (rec : DomainRecord) (spec : ProjectionSpec) : List QueryFilter :=
  spec.indexedFields.filterMap fun field =>
    (rec.data.get field).bind fun value => value.scalarIndex.map fun (kind, text) =>
      ⟨field, kind, text⟩

end Foundation.Hermes
