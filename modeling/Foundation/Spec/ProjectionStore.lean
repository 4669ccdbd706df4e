import Foundation.Lib.JsStd

/-! The client's stores: `createDomainStore`, a map of records with batched change
notices, and `createTenantProjectionStore`, which feeds it with versioned mutations
of one scope. Listeners are outside the model: nothing they return is read. -/

namespace Foundation.Workbench

/-- A property of a record. Values that are not strings are kept as they are. -/
inductive JsValue (ω : Type) where
  | undefined
  | null
  | string (s : String)
  | other (v : ω)
  deriving DecidableEq

abbrev Record (ω : Type) := JsMap String (JsValue ω)

structure DomainStoreSnapshot (R : Type) where
  byId : JsMap String R
  version : ℕ

structure DomainStore (R : Type) where
  version : ℕ
  byId : JsMap String R
  snapshot : DomainStoreSnapshot R
  snapshotDirty : Bool
  batchDepth : ℕ
  pendingBatchEmit : Bool

namespace DomainStore

variable {R : Type}

def rebuildSnapshot (s : DomainStore R) : DomainStore R :=
  if s.snapshotDirty then { s with snapshot := ⟨s.byId, s.version⟩, snapshotDirty := false } else s

def emit (s : DomainStore R) : DomainStore R :=
  if 0 < s.batchDepth then { s with snapshotDirty := true, pendingBatchEmit := true }
  else { s with snapshotDirty := true, version := s.version + 1 }

def flushBatch (s : DomainStore R) : DomainStore R :=
  if !s.pendingBatchEmit || 0 < s.batchDepth then s
  else { s with pendingBatchEmit := false, version := s.version + 1, snapshotDirty := true }

def replace (getId : R → String) (s : DomainStore R) (records : List R) : DomainStore R :=
  { s with byId := records.foldl (fun m record => m.set (getId record) record) .empty }.emit

def getSnapshot (s : DomainStore R) : DomainStoreSnapshot R := s.rebuildSnapshot.snapshot

def get (s : DomainStore R) (id : String) : Option R := s.byId.get id

def upsert (getId : R → String) (s : DomainStore R) (record : R) : DomainStore R :=
  { s with byId := s.byId.set (getId record) record }.emit

def remove (s : DomainStore R) (id : String) : DomainStore R :=
  if s.byId.has id then { s with byId := s.byId.delete id }.emit else s

def openBatch (s : DomainStore R) : DomainStore R := { s with batchDepth := s.batchDepth + 1 }

def closeBatch (s : DomainStore R) : DomainStore R :=
  { s with batchDepth := s.batchDepth - 1 }.flushBatch

end DomainStore

def createDomainStore {R : Type} (getId : R → String) (initialRecords : List R) : DomainStore R :=
  DomainStore.replace getId
    { version := 0, byId := .empty, snapshot := ⟨.empty, 0⟩, snapshotDirty := false,
      batchDepth := 0, pendingBatchEmit := false }
    initialRecords

inductive ProjectionMutationOperation where
  | upsert
  | patch
  | delete
  deriving DecidableEq

structure ProjectionScope where
  tenantId : String
  domain : String
  collection : String
  deriving DecidableEq

structure ProjectionMutation (ω : Type) where
  operation : ProjectionMutationOperation
  tenantId : String
  domain : String
  collection : String
  recordId : String
  version : JsNumber
  sourceWatermark : Option String
  fields : Option (Record ω)
  record : Option (Record ω)

structure ProjectionApplyResult where
  accepted : ℕ
  rejected : ℕ
  lastAcceptedVersion : Option JsNumber
  sourceWatermark : Option String

/-- `String(record.id ?? "")`. What `String` makes of a value that is not a string is a parameter.
-/
def defaultGetId {ω : Type} (toText : ω → String) (record : Record ω) : String :=
  match record.get "id" with
  | none | some .undefined | some .null => ""
  | some (.string s) => s
  | some (.other v) => toText v

structure TenantProjectionStore (ω : Type) where
  scope : ProjectionScope
  getId : Record ω → String
  store : DomainStore (Record ω)
  versions : JsMap String JsNumber

def createTenantProjectionStore {ω : Type} (scope : ProjectionScope) (getId : Record ω → String) :
    TenantProjectionStore ω :=
  { scope, getId, store := createDomainStore getId [], versions := .empty }

/-- `{ ...fields, id: recordId }`. -/
def withId {ω : Type} (fields : Record ω) (recordId : String) : Record ω :=
  fields.set "id" (.string recordId)

namespace TenantProjectionStore

variable {ω : Type}

def inScope (scope : ProjectionScope) (m : ProjectionMutation ω) : Bool :=
  m.tenantId = scope.tenantId && m.domain = scope.domain && m.collection = scope.collection

/-- The part of `applyOne` behind its two checks. -/
def accept (s : TenantProjectionStore ω) (m : ProjectionMutation ω) : TenantProjectionStore ω :=
  let s := { s with versions := s.versions.set m.recordId m.version }
  match m.operation with
  | .delete => { s with store := s.store.remove m.recordId }
  | .patch =>
    let current := (s.store.get m.recordId).getD (withId .empty m.recordId)
    { s with
      store := s.store.upsert s.getId (withId (current.assign (m.fields.getD .empty)) m.recordId) }
  | .upsert =>
    { s with
      store := s.store.upsert s.getId (m.record.getD (withId (m.fields.getD .empty) m.recordId)) }

def applyOne (s : TenantProjectionStore ω) (m : ProjectionMutation ω) :
    TenantProjectionStore ω × Bool :=
  if !inScope s.scope m then (s, false)
  else
    let currentVersion := (s.versions.get m.recordId).getD (.ofInt (-1))
    if m.version.lt currentVersion then (s, false) else (s.accept m, true)

def apply (s : TenantProjectionStore ω) (m : ProjectionMutation ω) :
    TenantProjectionStore ω × Bool :=
  s.applyOne m

def applyNext (acc : TenantProjectionStore ω × ProjectionApplyResult) (m : ProjectionMutation ω) :
    TenantProjectionStore ω × ProjectionApplyResult :=
  let (s, accepted) := acc.1.applyOne m
  let result := acc.2
  (s, if accepted then
      { result with
        accepted := result.accepted + 1
        lastAcceptedVersion := some (match result.lastAcceptedVersion with
          | none => m.version
          | some v => v.max m.version)
        sourceWatermark := m.sourceWatermark <|> result.sourceWatermark }
    else { result with rejected := result.rejected + 1 })

def applyMany (s : TenantProjectionStore ω) (mutations : List (ProjectionMutation ω)) :
    TenantProjectionStore ω × ProjectionApplyResult :=
  let (s, result) :=
    mutations.foldl applyNext ({ s with store := s.store.openBatch }, ⟨0, 0, none, none⟩)
  ({ s with store := s.store.closeBatch }, result)

end TenantProjectionStore

inductive Call (ω : Type) where
  | apply (m : ProjectionMutation ω)
  | applyMany (ms : List (ProjectionMutation ω))

namespace Call

variable {ω : Type}

def mutations : Call ω → List (ProjectionMutation ω)
  | .apply m => [m]
  | .applyMany ms => ms

def run (s : TenantProjectionStore ω) : Call ω → TenantProjectionStore ω
  | .apply m => (s.apply m).1
  | .applyMany ms => (s.applyMany ms).1

def runAll (s : TenantProjectionStore ω) (calls : List (Call ω)) : TenantProjectionStore ω :=
  calls.foldl run s

end Call

end Foundation.Workbench
