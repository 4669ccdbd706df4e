import Foundation.Lib.GoMap

/-! `GetOrSetContext` of `loader.go`: callers that share one load of a key, by their critical
sections and the channels they wait on. A call of a load is named by a number; clocks are left out,
so a load may time out at any moment, and a context may end at any moment. -/

namespace Foundation.Loader

structure LoadPolicy where
  timeout : ℤ := 0
  maxInflight : ℤ := 0
  maxWaiters : ℤ := 0

/-- Zero fields use bounded defaults. -/
def loadPolicy (config : LoadPolicy) : LoadPolicy where
  timeout := if config.timeout ≤ 0 then 5000000000 else config.timeout
  maxInflight := if config.maxInflight ≤ 0 then 64 else config.maxInflight
  maxWaiters := if config.maxWaiters ≤ 0 then 64 else config.maxWaiters

inductive ContextError where
  | canceled
  | deadlineExceeded
deriving DecidableEq

inductive LoadError where
  | context (e : ContextError)
  | busy
  | type
  | execution
  | source (text : String)
deriving DecidableEq

/-- Where the goroutine of `runLoad` stands: before `run` has returned, before its deferred section,
after it. -/
inductive Runner where
  | running
  | ran
  | finished
deriving DecidableEq

section

variable (Ty Val : Type)

/-- A `loadCall`; a value is of the type of the caller that started the load. -/
structure LoadCall where
  key : String := ""
  ctx : Option ContextError := none
  runner : Runner := .running
  waiters : ℕ := 0
  value : Option (Ty × Val) := none
  err : Option LoadError := none
  timedOut : Bool := false

/-- The load a caller has joined, and whether its goroutine had not ended then. -/
structure Joined where
  id : ℕ
  key : String
  ty : Ty
  alive : Bool
deriving DecidableEq

inductive Outcome where
  | value (v : Val)
  | error (e : LoadError)
deriving DecidableEq

inductive Phase where
  | idle
  | looking (key : String) (ty : Ty)
  | acquiring (key : String) (ty : Ty)
  | waiting (j : Joined Ty)
  | leaving (j : Joined Ty) (outcome : Outcome Val)
  | returned (j : Option (Joined Ty)) (outcome : Outcome Val)
deriving DecidableEq

structure State where
  loads : GoMap String ℕ
  next : ℕ
  calls : ℕ → LoadCall Ty Val
  phase : ℕ → Phase Ty Val
  ended : ℕ → Option ContextError

inductive Ready where
  | own
  | load
  | done
deriving DecidableEq

inductive Event where
  | call (caller : ℕ) (key : String) (ty : Ty)
  | look (caller : ℕ) (hit : Option Val)
  | acquire (caller : ℕ)
  | wake (caller : ℕ) (ready : Ready)
  | release (caller : ℕ)
  | endContext (caller : ℕ) (e : ContextError)
  | run (id : ℕ) (value : Option (Ty × Val)) (err : Option LoadError)
  | crash (id : ℕ)
  | finish (id : ℕ)
  | timeout (id : ℕ)

end

variable {Ty Val : Type} [DecidableEq Ty]

def init : State Ty Val := ⟨∅, 0, fun _ => {}, fun _ => .idle, fun _ => none⟩

def LoadCall.cancel (call : LoadCall Ty Val) : LoadCall Ty Val :=
  { call with ctx := some (call.ctx.getD .canceled) }

def State.goTo (s : State Ty Val) (caller : ℕ) (phase : Phase Ty Val) : State Ty Val :=
  { s with phase := Function.update s.phase caller phase }

def State.setCall (s : State Ty Val) (id : ℕ) (call : LoadCall Ty Val) : State Ty Val :=
  { s with calls := Function.update s.calls id call }

def acquireLoad (policy : LoadPolicy) (s : State Ty Val) (caller : ℕ) (key : String) (ty : Ty) :
    State Ty Val :=
  match s.loads.lookup key with
  | some id =>
    let call := s.calls id
    if call.ctx ≠ none ∨ policy.maxWaiters ≤ call.waiters then
      s.goTo caller (.returned none (.error .busy))
    else
      (s.setCall id { call with waiters := call.waiters + 1 }).goTo caller
        (.waiting ⟨id, key, ty, call.runner ≠ .finished⟩)
  | none =>
    if policy.maxInflight ≤ s.loads.keys.card then s.goTo caller (.returned none (.error .busy))
    else
      { s.setCall s.next { key, waiters := 1 } with
        loads := s.loads.insert key s.next, next := s.next + 1 }.goTo caller
        (.waiting ⟨s.next, key, ty, true⟩)

def releaseLoad (s : State Ty Val) (id : ℕ) : State Ty Val :=
  let call := { s.calls id with waiters := (s.calls id).waiters - 1 }
  s.setCall id (if call.waiters = 0 then call.cancel else call)

def LoadCall.result (call : LoadCall Ty Val) (ended : Option ContextError) (ty : Ty) :
    Outcome Val :=
  match ended, call.err, call.value with
  | some e, _, _ => .error (.context e)
  | none, some e, _ => .error e
  | none, none, none => .error .type
  | none, none, some (ty', v) => if ty' = ty then .value v else .error .type

/-- The outcome after the `select`, if the case it takes is ready. -/
def wakeOutcome (call : LoadCall Ty Val) (ended : Option ContextError) (ty : Ty) : Ready →
  Option (Outcome Val)
  | .own => ended.map fun e => .error (.context e)
  | .load =>
    call.ctx.map fun e => if call.runner = .finished then call.result ended ty
      else .error (.context e)
  | .done => if call.runner = .finished then some (call.result ended ty) else none

def step (policy : LoadPolicy) (s : State Ty Val) : Event Ty Val → Option (State Ty Val)
  | .call caller key ty =>
    match s.phase caller with
    | .idle => some (s.goTo caller (.looking key ty))
    | _ => none
  | .look caller hit =>
    match s.phase caller with
    | .looking key ty =>
      match s.ended caller, hit with
      | some e, _ => some (s.goTo caller (.returned none (.error (.context e))))
      | none, some v => some (s.goTo caller (.returned none (.value v)))
      | none, none => some (s.goTo caller (.acquiring key ty))
    | _ => none
  | .acquire caller =>
    match s.phase caller with
    | .acquiring key ty => some (acquireLoad policy s caller key ty)
    | _ => none
  | .wake caller ready =>
    match s.phase caller with
    | .waiting j =>
      (wakeOutcome (s.calls j.id) (s.ended caller) j.ty ready).map fun outcome =>
        s.goTo caller (.leaving j outcome)
    | _ => none
  | .release caller =>
    match s.phase caller with
    | .leaving j outcome => some ((releaseLoad s j.id).goTo caller (.returned (some j) outcome))
    | _ => none
  | .endContext caller e =>
    if s.ended caller = none then
      some { s with ended := Function.update s.ended caller (some e) } else none
  | .run id value err =>
    if id < s.next ∧ (s.calls id).runner = .running then
      some (s.setCall id { s.calls id with runner := .ran, value := value, err := err })
    else none
  | .crash id =>
    if id < s.next ∧ (s.calls id).runner = .running then
      some (s.setCall id { s.calls id with runner := .ran, err := some .execution })
    else none
  | .finish id =>
    if id < s.next ∧ (s.calls id).runner = .ran then
      some { s.setCall id { s.calls id with runner := .finished }.cancel with
        loads := s.loads.erase (s.calls id).key }
    else none
  | .timeout id =>
    if id < s.next ∧ (s.calls id).ctx = none then
      some (s.setCall id { s.calls id with ctx := some .deadlineExceeded, timedOut := true })
    else none

end Foundation.Loader
