import Foundation.Lib.GoMap
import Foundation.Spec.RecordNormal

/-! The durable base store: a map from record identities to records. Records are written
the way `MemoryDB` writes them, so what the map holds is always trimmed, normalized,
stamped with its organization and dated. -/

namespace Foundation

open Go

structure RecordIdentity where
  domain : String
  collection : String
  organizationID : String
  recordID : String
deriving DecidableEq, Repr

def recordIdentity (domain collection organizationID recordID : String) : RecordIdentity :=
  ⟨trimSpace domain, trimSpace collection, trimSpace organizationID, trimSpace recordID⟩

def identityOf (rec : DomainRecord) : RecordIdentity :=
  recordIdentity rec.domain rec.collection rec.organizationID rec.recordID

/-- A record as the base store keeps it. -/
structure Stored (rec : DomainRecord) : Prop where
  domain_trim : trimSpace rec.domain = rec.domain
  collection_trim : trimSpace rec.collection = rec.collection
  organizationID_trim : trimSpace rec.organizationID = rec.organizationID
  recordID_trim : trimSpace rec.recordID = rec.recordID
  domain_ne : rec.domain ≠ ""
  collection_ne : rec.collection ≠ ""
  recordID_ne : rec.recordID ≠ ""
  stamped : rec.organizationID ≠ "" →
    normalizeRecordDataWithOrganization rec.data rec.organizationID = rec.data
  createdAt_pos : 0 < rec.createdAt
  updatedAt_pos : 0 < rec.updatedAt

/-- The map holds every record under its own identity. -/
structure BaseStore where
  records : GoMap RecordIdentity DomainRecord
  stored : ∀ id rec, records.lookup id = some rec → identityOf rec = id ∧ Stored rec

namespace BaseStore

def empty : BaseStore := ⟨∅, by simp⟩

/-- The record `UpsertRecord` saves, given the record it replaces. -/
def savedRecord (now : Time) (existing : Option DomainRecord) (rec : DomainRecord) : DomainRecord :=
  let organizationID := trimSpace rec.organizationID
  { rec with
    domain := trimSpace rec.domain
    collection := trimSpace rec.collection
    organizationID := organizationID
    recordID := trimSpace rec.recordID
    data := if organizationID ≠ "" then
        rec.data.normalize.withField "organization_id" (stringValue organizationID)
      else rec.data.normalize
    createdAt := (existing.map (·.createdAt)).getD now
    updatedAt := now }

def get (db : BaseStore) (domain collection organizationID recordID : String) :
    Option DomainRecord :=
  db.records.lookup (recordIdentity domain collection organizationID recordID)

def saved (db : BaseStore) (now : Time) (rec : DomainRecord) : DomainRecord :=
  savedRecord now (db.records.lookup (identityOf rec)) rec

theorem identityOf_saved (db : BaseStore) (now : Time) (rec : DomainRecord) :
    identityOf (db.saved now rec) = identityOf rec := by
  simp [identityOf, recordIdentity, saved, savedRecord]

/-- The texts `UpsertRecord` rejects a blank identity with. -/
def validate (rec : DomainRecord) : Except String Unit :=
  if trimSpace rec.domain = "" then .error "domain is required"
  else if trimSpace rec.collection = "" then .error "collection is required"
  else if trimSpace rec.recordID = "" then .error "record id is required"
  else .ok ()

theorem saved_stored (db : BaseStore) {now : Time} (hnow : 0 < now) {rec : DomainRecord}
    (h : validate rec = .ok ()) : Stored (db.saved now rec) := by
  unfold validate at h
  split_ifs at h with hd hc hi
  refine ⟨trimSpace_trimSpace _, trimSpace_trimSpace _, trimSpace_trimSpace _,
    trimSpace_trimSpace _,
    hd, hc, hi, fun ho => ?_, ?_, hnow⟩
  · simp only [saved, savedRecord] at ho ⊢
    rw [if_pos ho]
    exact RecordData.stamp_withField _ _
  · cases hl : db.records.lookup (identityOf rec) with
    | none => simpa [saved, savedRecord, hl] using hnow
    | some old => simpa [saved, savedRecord, hl] using (db.stored _ _ hl).2.createdAt_pos

def put (db : BaseStore) (now : Time) (hnow : 0 < now) (rec : DomainRecord)
    (h : validate rec = .ok ()) :
    BaseStore where
  records := db.records.insert (identityOf rec) (db.saved now rec)
  stored id r hl := by
    rw [GoMap.lookup_insert_if] at hl
    split_ifs at hl with heq
    · obtain rfl : db.saved now rec = r := by simpa using hl
      exact ⟨by rw [identityOf_saved, heq], db.saved_stored hnow h⟩
    · exact db.stored id r hl

def upsertRecord (db : BaseStore) (now : Time) (hnow : 0 < now) (rec : DomainRecord) :
    Except String (DomainRecord × BaseStore) :=
  match h : validate rec with
  | .error e => .error e
  | .ok () => .ok (db.saved now rec, db.put now hnow rec h)

def deleteRecord (db : BaseStore) (domain collection organizationID recordID : String) :
    BaseStore where
  records := db.records.erase (recordIdentity domain collection organizationID recordID)
  stored id r hl := by
    rw [GoMap.lookup_erase_if] at hl
    split_ifs at hl
    exact db.stored id r hl

/-- One round of the deduplicating loop of `normalizeRecordFilters`. -/
def putFilter (out : List RecordFilter) (filter : RecordFilter) : List RecordFilter :=
  let field := trimSpace filter.field
  if field = "" then out
  else if out.any (·.field == field) then
    out.map fun g => if g.field = field then { filter with field := field } else g
  else out ++ [{ filter with field := field }]

def normalizeRecordFilters (filters : List RecordFilter) : List RecordFilter :=
  (filters.foldl putFilter []).insertionSort fun a b => a.field ≤ b.field

def recordMatches (rec : DomainRecord) (domain collection organizationID : String)
    (filters : List RecordFilter) : Bool :=
  if domain ≠ "" ∧ rec.domain ≠ domain then false
  else if collection ≠ "" ∧ rec.collection ≠ collection then false
  else if organizationID ≠ "" ∧ rec.organizationID ≠ organizationID then false
  else rec.data.matches filters

def notAfter (left right : DomainRecord) : Prop :=
  right.updatedAt < left.updatedAt ∨ left.updatedAt = right.updatedAt ∧
    left.recordID ≤ right.recordID

instance (left right : DomainRecord) : Decidable (notAfter left right) := by
  unfold notAfter
  infer_instance

/-- The records of a scope that match the filters, in no particular order. -/
def candidates (o : RangeOrder RecordIdentity) (db : BaseStore)
    (domain collection organizationID : String) (filters : List RecordFilter) : List DomainRecord :=
  ((o.visit db.records.keys).filterMap db.records.lookup).filter fun rec =>
    recordMatches rec (trimSpace domain) (trimSpace collection) (trimSpace organizationID)
      (normalizeRecordFilters filters)

/-- The records `ForEachRecord` visits, in order: the newest `limit` of the candidates. -/
def forEachRecord (o : RangeOrder RecordIdentity) (db : BaseStore)
    (domain collection organizationID : String) (query : RecordQuery) : List DomainRecord :=
  let sorted :=
    (db.candidates o domain collection organizationID query.filters).insertionSort notAfter
  if 0 < query.limit then sorted.take query.limit.toNat else sorted

def countRecords (o : RangeOrder RecordIdentity) (db : BaseStore)
    (domain collection organizationID : String) (query : RecordQuery) : ℤ :=
  (db.candidates o domain collection organizationID query.filters).length

end BaseStore

end Foundation
