import Foundation.Spec.Extension
import Foundation.Lib.BackwardPass

/-! The policy engine (`policy/policy.go`). Formatting with `%v` and regular expressions are those
of the Go library, of which nothing is assumed. -/

namespace Foundation.PolicyEngine

open Foundation.Extension

/-- Any other text is an effect too, and it does not deny. -/
inductive Effect where
  | empty | allow | deny
  | other (text : String)
deriving DecidableEq, Repr

inductive Decision where
  | allow | deny
deriving DecidableEq, Repr

structure Principal where
  id : String
  type : String
  roles : List String
  groups : List String
  attributes : Object

structure Resource where
  id : String
  type : String
  owner : String
  orgId : String
  attributes : Object

/-- The dynamic values that a condition compares. -/
inductive Any where
  | nil
  | string (s : String)
  | bool (b : Bool)
  | int64 (i : ℤ)
  | uint64 (u : ℕ)
  | float64 (f : Binary64)
  | bytes (b : List UInt8)
  | strings (l : List String)
  | anys (l : List Any)
  | map (fields : List (String × Any))
  | maps (l : List (List (String × Any)))
  | object (o : Object)
  | principal (p : Principal)
  | resource (r : Resource)
  /-- A value of any other type. -/
  | other (n : ℕ)

inductive ConditionOperator where
  | equals | notEquals | contains | in | notIn | matches | greaterThan | lessThan | exists
  | other (text : String)
deriving DecidableEq, Repr

structure Condition where
  field : String
  operator : ConditionOperator
  value : Any

structure PrincipalMatcher where
  type : String
  ids : List String
  roles : List String
  groups : List String
  anyOf : Bool

structure ResourceMatcher where
  type : String
  ids : List String
  owner : String
  orgId : String

structure Policy where
  id : String
  effect : Effect
  priority : ℤ
  principal : Option PrincipalMatcher
  actions : List String
  resource : Option ResourceMatcher
  conditions : List Condition

structure Request where
  principal : Principal
  action : String
  resource : Resource
  context : Object

structure Result where
  decision : Decision
  policyId : String
  reason : String
  diagnostics : List String
deriving DecidableEq, Repr

/-- `fmt.Sprintf("%v", value)`, and `regexp.Compile` with `MatchString`. -/
structure GoLibrary where
  sprint : Any → String
  compile : String → Option (String → Bool)

/-! ### The fields of a request -/

mutual

def interface : Value → Any
  | .null => .nil
  | .string s => .string s
  | .bool b => .bool b
  | .int i => .int64 i
  | .uint u => .uint64 u
  | .float f => .float64 f
  | .bytes b => .bytes b
  | .list items =>
    if !items.isEmpty && allObjects items then .maps (interfaceMaps items)
    else .anys (interfaces items)
  | .object fields => .map (interfaceFields fields)

def allObjects : List Value → Bool
  | [] => true
  | .object _ :: rest => allObjects rest
  | _ :: _ => false

def interfaces : List Value → List Any
  | [] => []
  | v :: rest => interface v :: interfaces rest

def interfaceFields : List (String × Value) → List (String × Any)
  | [] => []
  | (k, v) :: rest => (k, interface v) :: interfaceFields rest

def interfaceMaps : List Value → List (List (String × Any))
  | [] => []
  | .object fields :: rest => interfaceFields fields :: interfaceMaps rest
  | _ :: rest => interfaceMaps rest

end

/-- The loop over the keys: all but the last lead to objects. -/
def walkObject (o : Object) : List String → Any
  | [] => .nil
  | [key] =>
    match o.lookup key with
    | none => .nil
    | some v => interface v
  | key :: next :: rest =>
    match (o.lookup key).bind Value.objectValue with
    | none => .nil
    | some inner => walkObject inner (next :: rest)

def maxFieldDepth : ℕ := 32

def resolveObjectField (o : Object) (parts : List String) : Any :=
  if parts.isEmpty then .object o else if parts.length > maxFieldDepth then .nil
  else walkObject o parts

def resolvePrincipalField (p : Principal) : List String → Any
  | [] => .principal p
  | "id" :: _ => .string p.id
  | "type" :: _ => .string p.type
  | "roles" :: _ => .strings p.roles
  | "groups" :: _ => .strings p.groups
  | "attributes" :: rest => resolveObjectField p.attributes rest
  | _ => .nil

def resolveResourceField (r : Resource) : List String → Any
  | [] => .resource r
  | "id" :: _ => .string r.id
  | "type" :: _ => .string r.type
  | "owner" :: _ => .string r.owner
  | "org_id" :: _ => .string r.orgId
  | "attributes" :: rest => resolveObjectField r.attributes rest
  | _ => .nil

def resolveField (field : String) (req : Request) : Any :=
  match (field.toList.splitOn '.').map String.ofList with
  | "principal" :: rest => resolvePrincipalField req.principal rest
  | "resource" :: rest => resolveResourceField req.resource rest
  | "action" :: _ => .string req.action
  | "context" :: rest => resolveObjectField req.context rest
  | _ => .nil

variable (go : GoLibrary)

def containsText (s sub : String) : Bool := s.toList.tails.any fun t => sub.toList.isPrefixOf t

def evaluateCondition (cond : Condition) (req : Request) : Bool :=
  let value := resolveField cond.field req
  match cond.operator with
  | .equals => go.sprint value = go.sprint cond.value
  | .notEquals => go.sprint value ≠ go.sprint cond.value
  | .contains =>
    match value with
    | .strings l => l.contains (go.sprint cond.value)
    | .anys l => l.any fun item => go.sprint item = go.sprint cond.value
    | .string s => containsText s (go.sprint cond.value)
    | _ => false
  | .in =>
    match cond.value with
    | .anys l => l.any fun v => go.sprint v = go.sprint value
    | _ => false
  | .notIn =>
    match cond.value with
    | .anys l => !l.any fun v => go.sprint v = go.sprint value
    | _ => true
  | .matches =>
    match cond.value with
    | .string pattern =>
      match go.compile pattern with
      | some re => re (go.sprint value)
      | none => false
    | _ => false
  | .exists =>
    match value with
    | .nil => false
    | _ => true
  | _ => false

/-! ### Matching -/

/-- A matcher's text against a principal's or a resource's. -/
def matchType (pattern actual : String) : Bool := pattern = "" || pattern = "*" || pattern = actual

def matchIDs (ids : List String) (id : String) : Bool :=
  ids.isEmpty || ids.any fun m => m = id || m = "*"

/-- One of the principal's names, or any of them for `*`. -/
def named (pattern : String) (names : List String) : Bool :=
  names.any fun n => pattern = n || pattern = "*"

def matchRoles (m : PrincipalMatcher) (roles : List String) : Bool :=
  m.roles.isEmpty || if m.anyOf then m.roles.any (named · roles) else m.roles.all (named · roles)

def matchPrincipal (m : PrincipalMatcher) (p : Principal) : Bool :=
  matchType m.type p.type && matchIDs m.ids p.id && matchRoles m p.roles &&
    (m.groups.isEmpty || m.groups.any (named · p.groups))

def hasWildcard (a : String) : Bool := [':', '*'].isSuffixOf a.toList

def matchOneAction (a action : String) : Bool :=
  a = "*" || a = action || hasWildcard a && a.toList.dropLast.isPrefixOf action.toList

def matchAction (allowed : List String) (action : String) : Bool :=
  allowed.any (matchOneAction · action)

def ownerPlaceholder : String := "$\x7bprincipal.id\x7d"

def matchOwner (owner : String) (r : Resource) (p : Principal) : Bool :=
  owner = "" || (if owner = ownerPlaceholder then p.id else owner) = r.owner

def matchResource (m : ResourceMatcher) (r : Resource) (p : Principal) : Bool :=
  matchType m.type r.type && matchIDs m.ids r.id && matchOwner m.owner r p &&
    (m.orgId = "" || m.orgId = r.orgId)

def ConditionOperator.text : ConditionOperator → String
  | .equals => "equals"
  | .notEquals => "not_equals"
  | .contains => "contains"
  | .in => "in"
  | .notIn => "not_in"
  | .matches => "matches"
  | .greaterThan => "gt"
  | .lessThan => "lt"
  | .exists => "exists"
  | .other text => text

/-- Whether the policy matches, and the reason that goes into the diagnostics. -/
def matchPolicy (p : Policy) (req : Request) : Bool × String :=
  if !p.principal.all (matchPrincipal · req.principal) then (false, "principal mismatch")
  else if !matchAction p.actions req.action then (false, "action mismatch")
  else if !p.resource.all (matchResource · req.resource req.principal) then
    (false, "resource mismatch")
  else
    match p.conditions.find? fun cond => !evaluateCondition go cond req with
    | some cond => (false, "condition " ++ cond.field ++ " " ++ cond.operator.text ++ " failed")
    | none => (true, "matched")

def matched (p : Policy) (req : Request) : Bool := (matchPolicy go p req).1

/-! ### The engine -/

structure Engine where
  policies : List Policy

def newEngine : Engine := ⟨[]⟩

def Policy.stored (p : Policy) : Policy :=
  if p.effect = .empty then { p with effect := .allow } else p

def Engine.addPolicy (e : Engine) (p : Policy) : Engine :=
  ⟨BackwardPass.pass Policy.priority (e.policies ++ [p.stored])⟩

def Engine.removePolicy (e : Engine) (id : String) : Engine := ⟨e.policies.eraseP (·.id = id)⟩

/-- The loop of `Evaluate`: the first allow seen so far, and the diagnostics. -/
def evaluateLoop (req : Request) (matchedAllow : Option Policy) (diagnostics : List String) :
  List Policy → Result
  | [] =>
    match matchedAllow with
    | some p => ⟨.allow, p.id, "allowed by policy " ++ p.id, diagnostics⟩
    | none => ⟨.deny, "", "no matching policy found (default deny)", diagnostics⟩
  | p :: rest =>
    let m := matchPolicy go p req
    let diagnostics := diagnostics ++ ["policy " ++ p.id ++ ": " ++ m.2]
    if m.1 then
      if p.effect = .deny then ⟨.deny, p.id, "explicitly denied by policy " ++ p.id, diagnostics⟩
      else evaluateLoop req (matchedAllow.or (some p)) diagnostics rest
    else evaluateLoop req matchedAllow diagnostics rest

def Engine.evaluate (e : Engine) (req : Request) : Result := evaluateLoop go req none [] e.policies

inductive Op where
  | add (p : Policy)
  | remove (id : String)

def Engine.apply (e : Engine) : Op → Engine
  | .add p => e.addPolicy p
  | .remove id => e.removePolicy id

def Engine.run (e : Engine) (ops : List Op) : Engine := ops.foldl Engine.apply e

end Foundation.PolicyEngine
