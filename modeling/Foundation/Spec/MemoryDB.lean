import Foundation.Lib.InvertedIndex
import Foundation.Spec.Base

/-! The in-memory database (`database.go`): records under joined keys, with indexes by scope,
organization and field value, and logs of the writes to a scope or field value. -/

namespace Foundation.Database

open Go InvertedIndex

inductive DBError where
  | contextDone
  | message (text : String)
deriving DecidableEq, Repr

structure RecordScope where
  domain : String
  collection : String
  organizationID : String
deriving DecidableEq, Repr

structure FieldIndex where
  scope : RecordScope
  field : String
  kind : Char
  value : String
deriving DecidableEq, Repr

structure RecordOrderEntry where
  key : String
  version : ℕ
deriving DecidableEq, Repr

structure MemoryDB where
  closed : Bool := false
  records : GoMap String DomainRecord := ∅
  byScope : GoMap RecordScope (Finset String) := ∅
  byOrg : GoMap String (Finset String) := ∅
  byField : GoMap FieldIndex (Finset String) := ∅
  nextVersion : ℕ := 0
  versions : GoMap String ℕ := ∅
  byScopeOrder : GoMap RecordScope (List RecordOrderEntry) := ∅
  byFieldOrder : GoMap FieldIndex (List RecordOrderEntry) := ∅

def recordKey (domain collection organizationID recordID : String) : String :=
  trimSpace domain ++ "|" ++ trimSpace collection ++ "|" ++ trimSpace organizationID ++ "|" ++
    trimSpace recordID

def keyOf (rec : DomainRecord) : String :=
  recordKey rec.domain rec.collection rec.organizationID rec.recordID

def scopeKey (domain collection organizationID : String) : RecordScope :=
  ⟨trimSpace domain, trimSpace collection, trimSpace organizationID⟩

def scopeOf (rec : DomainRecord) : RecordScope :=
  scopeKey rec.domain rec.collection rec.organizationID

/-- The field indexes of a record; its organization is not one of them. -/
def forEachRecordFieldIndex (rec : DomainRecord) : List FieldIndex :=
  rec.data.filterMap fun field =>
    if field.name = "organization_id" then none
    else field.value.scalarIndex.map fun index => ⟨scopeOf rec, field.name, index.1, index.2⟩

def orgOf (rec : DomainRecord) : List String :=
  if rec.organizationID ≠ "" then [rec.organizationID] else []

namespace MemoryDB

def ensureReady (db : MemoryDB) (ctxDone : Bool) : Except DBError Unit :=
  if ctxDone then .error .contextDone
  else if db.closed then .error (.message "database is closed")
  else .ok ()

def addRecordIndexesLocked (db : MemoryDB) (key : String) (rec : DomainRecord) : MemoryDB :=
  let entry : RecordOrderEntry := ⟨key, (db.versions.lookup key).getD 0⟩
  { db with
    byScope := addKey key db.byScope (scopeOf rec)
    byScopeOrder := appendLog entry db.byScopeOrder (scopeOf rec)
    byOrg := (orgOf rec).foldl (addKey key) db.byOrg
    byField := (forEachRecordFieldIndex rec).foldl (addKey key) db.byField
    byFieldOrder := (forEachRecordFieldIndex rec).foldl (appendLog entry) db.byFieldOrder }

/-- The logs keep the entries of a record that leaves. -/
def removeRecordIndexesLocked (db : MemoryDB) (key : String) (rec : DomainRecord) : MemoryDB :=
  { db with
    byScope := removeKey key db.byScope (scopeOf rec)
    byOrg := (orgOf rec).foldl (removeKey key) db.byOrg
    byField := (forEachRecordFieldIndex rec).foldl (removeKey key) db.byField }

/-- The indexes without the record under a key, if there is one. -/
def clearLocked (db : MemoryDB) (key : String) : MemoryDB :=
  match db.records.lookup key with
  | some rec => db.removeRecordIndexesLocked key rec
  | none => db

def upsertLocked (db : MemoryDB) (now : Time) (rec : DomainRecord) : DomainRecord × MemoryDB :=
  let key := keyOf rec
  let saved := BaseStore.savedRecord now (db.records.lookup key) rec
  let cleared := db.clearLocked key
  let version := (cleared.nextVersion + 1) % 2 ^ 64
  let stored := { cleared with
    nextVersion := version
    versions := cleared.versions.insert key version
    records := cleared.records.insert key saved }
  (saved, stored.addRecordIndexesLocked key saved)

def upsertRecord (db : MemoryDB) (ctxDone : Bool) (now : Time) (rec : DomainRecord) :
    Except DBError (DomainRecord × MemoryDB) := do
  db.ensureReady ctxDone
  (BaseStore.validate rec).mapError .message
  return db.upsertLocked now rec

def getRecord (db : MemoryDB) (ctxDone : Bool)
    (domain collection organizationID recordID : String) :
    Except DBError (Option DomainRecord) := do
  db.ensureReady ctxDone
  return db.records.lookup (recordKey domain collection organizationID recordID)

def deleteLocked (db : MemoryDB) (key : String) : MemoryDB :=
  let cleared := db.clearLocked key
  { cleared with records := cleared.records.erase key, versions := cleared.versions.erase key }

def deleteRecord (db : MemoryDB) (ctxDone : Bool)
    (domain collection organizationID recordID : String) :
    Except DBError MemoryDB := do
  db.ensureReady ctxDone
  return db.deleteLocked (recordKey domain collection organizationID recordID)

def deleteOrgKey (state : ℤ × MemoryDB) (key : String) : ℤ × MemoryDB :=
  match state.2.records.lookup key with
  | none => state
  | some rec => (state.1 + 1, { state.2 with
      records := state.2.records.erase key
      versions := state.2.versions.erase key }.removeRecordIndexesLocked key rec)

/-- `order` is the order in which the keys of the organization are visited. -/
def deleteOrgLocked (db : MemoryDB) (order : RangeOrder String) (organizationID : String) :
    ℤ × MemoryDB :=
  if organizationID = "" then (0, db)
  else
    let state := (order.visit (keysAt db.byOrg organizationID)).foldl deleteOrgKey (0, db)
    (state.1, { state.2 with byOrg := state.2.byOrg.erase organizationID })

def deleteRecordsByOrganization (db : MemoryDB) (ctxDone : Bool) (order : RangeOrder String)
    (organizationID : String) :
    Except DBError (ℤ × MemoryDB) := do
  db.ensureReady ctxDone
  return db.deleteOrgLocked order (trimSpace organizationID)

end MemoryDB

/-! ### Runs -/

/-- A call that writes. `order` is the order in which a map is visited. -/
inductive Write where
  | upsert (ctxDone : Bool) (now : Time) (rec : DomainRecord)
  | delete (ctxDone : Bool) (domain collection organizationID recordID : String)
  | deleteOrg (ctxDone : Bool) (order : RangeOrder String) (organizationID : String)

/-- The database after a call; one that fails leaves it as it was. -/
def MemoryDB.exec (db : MemoryDB) : Write → MemoryDB
  | .upsert ctxDone now rec => ((db.upsertRecord ctxDone now rec).toOption.map (·.2)).getD db
  | .delete ctxDone domain collection organizationID recordID =>
    (db.deleteRecord ctxDone domain collection organizationID recordID).toOption.getD db
  | .deleteOrg ctxDone order organizationID =>
    ((db.deleteRecordsByOrganization ctxDone order organizationID).toOption.map (·.2)).getD db

end Foundation.Database
