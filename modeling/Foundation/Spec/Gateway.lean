import Foundation.Lib.Binary64
import Foundation.Spec.StateStore

/-! The projection gateway's read path: the mutations records are shown as, the audiences
a policy derives from them, the topics a batch fans out to and the snapshot a caller is
served. Warming of cold scopes is outside the model. -/

namespace Foundation.Projectiongw

open Go Hermes

def dedupeKeys (keys : List String) : List String :=
  keys.foldl (fun out key => if key = "" || key ∈ out then out else out ++ [key]) []

inductive ScalarValue where
  | string (s : String)
  | bool (b : Bool)
  | int64 (i : ℤ)
  | uint64 (n : ℕ)
  | double (f : Binary64)
  | bytes (b : List UInt8)

structure FieldValue where
  name : String
  value : ScalarValue

inductive ProjectionOperation where
  | upsert
  | patch
  | delete
  deriving DecidableEq

structure RecordMutation where
  operation : ProjectionOperation
  version : ℕ
  domain : String
  collection : String
  organizationID : String
  recordID : String
  fields : List FieldValue
  vector : List UInt32
  createdAt : Option Time
  updatedAt : Option Time

/-- What `strconv` makes of decimal texts. -/
structure Numerals where
  parseInt : String → Option ℤ
  parseUint : String → Option ℕ
  parseFloat : String → Option Binary64
  formatFloat : Binary64 → String

def scalarToProto (n : Numerals) (value : RecordValue) : Option ScalarValue :=
  match value.kind with
  | .string => some (.string value.text)
  | .bool => some (.bool (value.text == "true"))
  | .int => (n.parseInt value.text).map .int64
  | .uint => (n.parseUint value.text).map .uint64
  | .float => (n.parseFloat value.text).map .double
  | .raw => some (.bytes value.raw)
  | .null => none

def fieldsToProto (n : Numerals) (data : RecordData) : List FieldValue :=
  data.filterMap fun field => (scalarToProto n field.value).map fun value => ⟨field.name, value⟩

def operationToProto : Operation → ProjectionOperation
  | .patch => .patch
  | .delete => .delete
  | .unset | .upsert | .other _ => .upsert

def mutationFromRecord (n : Numerals) (rec : DomainRecord) (operation : Operation) (version : ℕ)
    (includeVector : Bool) : RecordMutation where
  operation := operationToProto operation
  version := version
  domain := rec.domain
  collection := rec.collection
  organizationID := rec.organizationID
  recordID := rec.recordID
  fields := fieldsToProto n rec.data
  vector := if includeVector then rec.vector else []
  createdAt := if rec.createdAt = 0 then none else some rec.createdAt
  updatedAt := if rec.updatedAt = 0 then none else some rec.updatedAt

structure ProjectionScope where
  tenantID : String
  domain : String
  collection : String
  deriving DecidableEq

def mutationScope (m : RecordMutation) : ProjectionScope :=
  ⟨m.organizationID, m.domain, m.collection⟩

inductive GatewayError where
  | scopeInvalid
  | audienceForbidden
  | audienceUndeclared (domain collection : String)
  | audienceTooBroad
  | store (e : HermesError)

/-- The topic of a scope: `tenant:domain:collection`. -/
def ScopeKey (scope : ProjectionScope) : String :=
  scope.tenantID ++ ":" ++ scope.domain ++ ":" ++ scope.collection

def validScope (scope : ProjectionScope) : Bool :=
  trimSpace scope.tenantID ≠ "" && trimSpace scope.domain ≠ "" && trimSpace scope.collection ≠ "" &&
    ':' ∉ scope.tenantID.toList && ':' ∉ scope.domain.toList && ':' ∉ scope.collection.toList

def validateScope (scope : ProjectionScope) : Except GatewayError Unit :=
  if validScope scope then .ok () else .error .scopeInvalid

/-- A snapshot may carry records without an organization. -/
def filterScope (mutations : List RecordMutation) (scope : ProjectionScope) : List RecordMutation :=
  mutations.filter fun m =>
    !(m.domain ≠ scope.domain || m.collection ≠ scope.collection) &&
      !(m.organizationID ≠ "" && m.organizationID ≠ scope.tenantID)

/-! Audiences. -/

inductive AudienceMode where
  | tenant
  | perRecord
  deriving DecidableEq

structure AudiencePolicy where
  mode : AudienceMode
  fields : List String
  record : Option (RecordMutation → List String)

structure AudienceConfig where
  policies : GoMap String AudiencePolicy
  strict : Bool

def stringField (m : RecordMutation) (field : String) : String :=
  match m.fields.find? (·.name == field) with
  | some ⟨_, .string s⟩ => trimSpace s
  | _ => ""

/-- Trims, drops empties and removes duplicates, keeping the order. -/
def dedupeAudiences (ids : List String) : List String :=
  ids.foldl (fun out id => if trimSpace id = "" || trimSpace id ∈ out then out
    else out ++ [trimSpace id]) []

def intersects (recordAudiences subjectAudiences : List String) : Bool :=
  recordAudiences.any (· ∈ subjectAudiences)

namespace AudiencePolicy

def appendAudiences (p : AudiencePolicy) (dst : List String) (m : RecordMutation) : List String :=
  match p.record with
  | some record =>
    (record m).foldl (fun dst id => if trimSpace id ≠ "" && trimSpace id ∉ dst then
      dst ++ [trimSpace id] else dst) dst
  | none =>
    p.fields.foldl (fun dst field =>
      if stringField m field = "" || stringField m field ∈ dst then dst
      else dst ++ [stringField m field]) dst

def audiences (p : AudiencePolicy) (m : RecordMutation) : List String := p.appendAudiences [] m

end AudiencePolicy

namespace AudienceConfig

def resolve (c : AudienceConfig) (domain collection : String) :
    Except GatewayError AudiencePolicy :=
  match c.policies.lookup (domain ++ "/" ++ collection) with
  | some policy => .ok policy
  | none =>
    if c.strict then .error (.audienceUndeclared domain collection) else .ok ⟨.tenant, [], none⟩

/-- `validate` passes: every per-record policy names a field to filter on. -/
def Valid (c : AudienceConfig) : Prop :=
  ∀ key policy, c.policies.lookup key = some policy → policy.mode = .perRecord →
    dedupeAudiences policy.fields ≠ []

end AudienceConfig

def AudienceScopeKey (scope : ProjectionScope) (audience : String) : String :=
  ScopeKey scope ++ ":@" ++ audience

def audienceKeys (scope : ProjectionScope) (audiences : List String) : List String :=
  audiences.map (AudienceScopeKey scope)

def maxAudienceSnapshotReads : ℕ := 32

structure AudienceFilter where
  field : String
  audience : String
  deriving DecidableEq

/-- The order the reads are issued in. -/
def AudienceFilter.le (a b : AudienceFilter) : Bool :=
  if a.field ≠ b.field then a.field < b.field else a.audience ≤ b.audience

def snapshotAudienceFilters (policy : AudiencePolicy) (audiences : List String) :
    Except GatewayError (List AudienceFilter) :=
  let fields := dedupeAudiences policy.fields
  if maxAudienceSnapshotReads < fields.length * audiences.length then .error .audienceTooBroad
  else .ok ((fields.flatMap fun field => audiences.map (AudienceFilter.mk field)).insertionSort
    fun a b => a.le b = true)

/-! The live fan-out. -/

def topics (c : AudienceConfig) (m : RecordMutation) : List String :=
  match c.resolve m.domain m.collection with
  | .error _ => []
  | .ok policy =>
    if policy.mode ≠ .perRecord then [ScopeKey (mutationScope m)]
    else audienceKeys (mutationScope m) (policy.appendAudiences [] m)

/-- `groupAccepted`: the mutations of each topic, and how many reach none. -/
def groupAccepted (n : Numerals) (c : AudienceConfig) (accepted : List AppliedMutation) :
    GoMap String (List RecordMutation) × ℕ :=
  accepted.foldl (fun (groups, undeliverable) applied =>
    let m := mutationFromRecord n applied.record applied.operation applied.version true
    match topics c m with
    | [] => (groups, undeliverable + 1)
    | keys =>
      (keys.foldl (fun groups key => groups.insert key ((groups.lookup key).getD [] ++ [m])) groups,
        undeliverable)) (∅, 0)

/-- The topics `SubscribeAudience` registers a caller under. -/
def subscribeAudience (c : AudienceConfig) (scope : ProjectionScope) (audiences : List String) :
    Except GatewayError (List String) := do
  validateScope scope
  let policy ← c.resolve scope.domain scope.collection
  if policy.mode ≠ .perRecord then return dedupeKeys [ScopeKey scope]
  let audiences := dedupeAudiences audiences
  if audiences = [] then throw .audienceForbidden
  return dedupeKeys (audienceKeys scope audiences)

/-! Snapshots. -/

structure SnapshotPage where
  mutations : List RecordMutation
  epoch : ℕ
  watermark : ℕ
  nextCursor : ℕ
  hasMore : Bool

structure SnapshotRequest where
  scope : ProjectionScope
  limit : ℤ
  sinceWatermark : String
  cursor : String
  excludeVectors : Bool

structure ProjectionSnapshot where
  scope : ProjectionScope
  mutations : List RecordMutation
  watermark : String
  epoch : ℕ
  nextCursor : String
  hasMore : Bool

def formatWatermark (watermark : ℕ) : String := if watermark = 0 then "" else Nat.repr watermark

/-- The newest version of every record of the pages, in order of first appearance. -/
def newestPerRecord (pages : List SnapshotPage) : List RecordMutation :=
  (pages.flatMap (·.mutations)).foldl (fun out m =>
    if out.any (·.recordID == m.recordID) then
      out.map fun existing => if existing.recordID = m.recordID ∧ existing.version < m.version then
        m else existing
    else out ++ [m]) []

/-- The least of the pages' numbers, 0 without pages. -/
def leastOf (f : SnapshotPage → ℕ) : List SnapshotPage → ℕ
  | [] => 0
  | page :: rest => rest.foldl (fun least page => min least (f page)) (f page)

def mergeSnapshotPages (pages : List SnapshotPage) (limit : ℤ) : SnapshotPage :=
  let mutations := (newestPerRecord pages).insertionSort fun a b => b.version ≤ a.version
  let cut := decide (0 < limit) && decide (limit < mutations.length)
  let kept := if cut then mutations.take limit.toNat else mutations
  let hasMore := pages.any (·.hasMore) || cut
  { mutations := kept, epoch := leastOf (·.epoch) pages, watermark := leastOf (·.watermark) pages
    hasMore
    nextCursor := if hasMore then ((kept.getLast?).map (·.version)).getD 0 else 0 }

def filterAudience (mutations : List RecordMutation) (policy : AudiencePolicy)
    (audiences : List String) :
    List RecordMutation :=
  mutations.filter fun m => intersects (policy.audiences m) audiences

structure Gateway where
  resolver : ProjectionScope → Except GatewayError (String × Query)
  maxLimit : ℤ
  audience : AudienceConfig

/-- Resolvers look at valid scopes only, as both shipped ones do. -/
def Gateway.resolve (g : Gateway) (scope : ProjectionScope) :
    Except GatewayError (String × Query) := do
  validateScope scope
  g.resolver scope

def Gateway.boundedLimit (g : Gateway) (resolved requested : ℤ) : ℤ :=
  let resolved :=
    if 0 < requested ∧ (resolved = 0 ∨ requested < resolved) then requested else resolved
  if resolved ≤ 0 ∨ g.maxLimit < resolved then g.maxLimit else resolved

def queryFilterValue (n : Numerals) (filter : QueryFilter) : RecordValue :=
  match filter.kind with
  | 'b' => boolValue (filter.value == "1" || equalFold filter.value "true")
  | 'i' => match n.parseInt filter.value with
    | some i => intValue i
    | none => stringValue filter.value
  | 'u' => match n.parseUint filter.value with
    | some u => { kind := .uint, text := Nat.repr u }
    | none => stringValue filter.value
  | 'f' => match n.parseFloat filter.value with
    | some f => { kind := .float, text := n.formatFloat f }
    | none => stringValue filter.value
  | _ => stringValue filter.value

/-- `normalizeRecordFilters`: a later filter takes the place of an earlier one on the same field. -/
def normalizeRecordFilters (filters : List RecordFilter) : List RecordFilter :=
  (filters.foldl (fun out filter =>
    let field := trimSpace filter.field
    if field = "" then out
    else if out.any (·.field == field) then
      out.map fun f => if f.field = field then { filter with field } else f
    else out ++ [{ filter with field }]) []).insertionSort fun a b => a.field ≤ b.field

def audienceQuery (n : Numerals) (query : Query) (filter : AudienceFilter) : Query :=
  let planned :=
    normalizeRecordFilters (query.plan.planned.map fun f => ⟨f.field, queryFilterValue n f⟩)
  ProjectedRuntimeStore.queryFromRecordQuery query.organizationID
    { limit := query.limit, filters := planned ++ [⟨filter.field, stringValue filter.audience⟩] }

/-- What a snapshot request comes down to: the partition, the reads and how their pages are put
together. -/
structure SnapshotPlan where
  projection : String
  policy : AudiencePolicy
  audiences : List String
  limit : ℤ
  queries : List Query

def Gateway.snapshotPlan (n : Numerals) (g : Gateway) (req : SnapshotRequest)
    (audiences : List String) :
    Except GatewayError SnapshotPlan := do
  let (projection, query) ← g.resolve req.scope
  let policy ← g.audience.resolve req.scope.domain req.scope.collection
  let audiences := dedupeAudiences audiences
  if policy.mode = .perRecord ∧ audiences = [] then throw .audienceForbidden
  let query := { query with limit := g.boundedLimit query.limit req.limit }
  if policy.mode = .perRecord then
    let filters ← snapshotAudienceFilters policy audiences
    return ⟨projection, policy, audiences, query.limit, filters.map (audienceQuery n query)⟩
  return ⟨projection, policy, audiences, query.limit, [query]⟩

def SnapshotPlan.assemble (plan : SnapshotPlan) (scope : ProjectionScope)
    (pages : List SnapshotPage) :
    ProjectionSnapshot :=
  let perRecord := plan.policy.mode = .perRecord
  let page : SnapshotPage :=
    if perRecord then mergeSnapshotPages pages plan.limit else pages.headD ⟨[], 0, 0, 0, false⟩
  let mutations := filterScope page.mutations scope
  { scope, epoch := page.epoch, hasMore := page.hasMore
    mutations :=
      if perRecord then filterAudience mutations plan.policy plan.audiences else mutations
    watermark := formatWatermark page.watermark, nextCursor := formatWatermark page.nextCursor }

def Gateway.snapshotAudience (n : Numerals) (g : Gateway)
    (read : String → Query → Except HermesError SnapshotPage) (req : SnapshotRequest)
    (audiences : List String) : Except GatewayError ProjectionSnapshot := do
  let plan ← g.snapshotPlan n req audiences
  let pages ← (plan.queries.mapM (read plan.projection)).mapError .store
  return plan.assemble req.scope pages

end Foundation.Projectiongw
