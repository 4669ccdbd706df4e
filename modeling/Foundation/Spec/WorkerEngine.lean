import Foundation.Spec.Extension
import Foundation.Lib.Reached

/-! The queue runners of `worker/engine.go`: any number of calls of `handleJob`, by their accesses
to the dedupe set. `time.Now` is read before the lock of the set is taken, so the reading and the
access are steps of their own. -/

namespace Foundation.Worker

open Extension

structure Job where
  kind : String
  queue : String
  metadata : Object
  idempotencyKey : String
  attempt : ℤ
  maxAttempts : ℤ

def Job.normalize (j : Job) : Job := { j with
  queue := if Go.trimSpace j.queue = "" then "default" else j.queue
  maxAttempts := if j.maxAttempts ≤ 0 then 3 else j.maxAttempts
  attempt := if j.attempt < 0 then 0 else j.attempt }

def Job.validate (j : Job) : Except String Unit :=
  if Go.trimSpace j.kind = "" then .error "job.kind is required"
  else if Go.trimSpace j.queue = "" then .error "job.queue is required"
  else if j.maxAttempts ≤ 0 then .error "job.max_attempts must be > 0"
  else if j.attempt > j.maxAttempts then
    .error ("job.attempt " ++ toString j.attempt ++ " exceeds max_attempts " ++
      toString j.maxAttempts)
  else .ok ()

def dedupeKey (j : Job) : String :=
  if j.idempotencyKey ≠ "" then j.kind ++ ":" ++ j.idempotencyKey
  else match (j.metadata.lookup "idempotency_key").bind Value.stringValue with
    | some v => if v ≠ "" then j.kind ++ ":" ++ v else ""
    | none => ""

/-! ### The dedupe set -/

/-- In nanoseconds, as all times. -/
def dedupeTTL : ℕ := 24 * 60 * 60 * 1000000000

/-- `order` is the queue from its head on; compaction only moves it in memory. -/
structure DedupeSet where
  entries : GoMap String ℕ := ∅
  order : List (String × ℕ) := []
  max : ℕ

def DedupeSet.has (d : DedupeSet) (key : String) (now : ℕ) : Bool × DedupeSet :=
  match d.entries.lookup key with
  | none => (false, d)
  | some expiry =>
    if now > expiry then (false, { d with entries := d.entries.erase key }) else (true, d)

def popLocked (more : GoMap String ℕ → String × ℕ → Bool) :
    GoMap String ℕ → List (String × ℕ) → GoMap String ℕ × List (String × ℕ)
  | entries, [] => (entries, [])
  | entries, front :: rest =>
    if more entries front then
      popLocked more (if entries.lookup front.1 = some front.2 then entries.erase front.1
        else entries) rest
    else (entries, front :: rest)

def DedupeSet.mark (d : DedupeSet) (key : String) (now : ℕ) : DedupeSet :=
  let expiry := now + dedupeTTL
  let popped := popLocked (fun entries _ => entries.keys.card > d.max) (d.entries.insert key expiry)
    (d.order ++ [(key, expiry)])
  { d with entries := popped.1, order := popped.2 }

def DedupeSet.prune (d : DedupeSet) (now : ℕ) : DedupeSet :=
  let popped := popLocked (fun _ front => now > front.2) d.entries d.order
  { d with entries := popped.1, order := popped.2 }

/-! ### The runs -/

/-- Where a job is: not accepted, in its queue or before `handleJob` again, before the check, past
it, with a handler that succeeded, before the mark, or over. -/
inductive Phase where
  | created
  | entering
  | checking (now : ℕ)
  | running
  | succeeded
  | marking (now : ℕ)
  | returned
deriving DecidableEq, Repr

/-- `successes` are the keys of the handler runs that succeeded and when, the last one first. -/
structure Engine (ι : Type) where
  job : ι → Job
  phase : ι → Phase := fun _ => .created
  dedupe : DedupeSet
  now : ℕ := 0
  successes : List (String × ℕ) := []

inductive Event (ι : Type) where
  | tick (elapsed : ℕ)
  | enqueue (i : ι)
  | enter (i : ι) (registered : Bool)
  | check (i : ι)
  | succeed (i : ι)
  | fail (i : ι)
  | stop (i : ι)
  | sample (i : ι)
  | mark (i : ι)
  | prune (now : ℕ)

variable {ι : Type} [DecidableEq ι]

def Engine.goto (s : Engine ι) (i : ι) (phase : Phase) : Engine ι :=
  { s with phase := Function.update s.phase i phase }

def Engine.setJob (s : Engine ι) (i : ι) (job : Job) : Engine ι :=
  { s with job := Function.update s.job i job }

def step (s : Engine ι) : Event ι → Option (Engine ι)
  | .tick elapsed => some { s with now := s.now + elapsed }
  | .enqueue i =>
    if s.phase i = .created then
      match (s.job i).normalize.validate with
      | .ok _ => some ((s.setJob i (s.job i).normalize).goto i .entering)
      | .error _ => some s
    else none
  | .enter i registered =>
    if s.phase i = .entering then
      if !registered then some (s.goto i .returned)
      else if dedupeKey (s.job i) = "" then some (s.goto i .running)
      else some (s.goto i (.checking s.now))
    else none
  | .check i =>
    match s.phase i with
    | .checking now =>
      let found := s.dedupe.has (dedupeKey (s.job i)) now
      some ({ s with dedupe := found.2 }.goto i (if found.1 then .returned else .running))
    | _ => none
  | .succeed i =>
    if s.phase i = .running then
      if dedupeKey (s.job i) = "" then some (s.goto i .returned)
      else some ({ s with successes := (dedupeKey (s.job i), s.now) :: s.successes }.goto
        i .succeeded)
    else none
  | .fail i =>
    if s.phase i = .running then
      let job := { s.job i with attempt := (s.job i).attempt + 1 }
      some ((s.setJob i job).goto i (if job.attempt ≥ job.maxAttempts then
        .returned else .entering))
    else none
  | .stop i =>
    if s.phase i = .entering ∨ s.phase i = .running then some (s.goto i .returned) else none
  | .sample i => if s.phase i = .succeeded then some (s.goto i (.marking s.now)) else none
  | .mark i =>
    match s.phase i with
    | .marking now =>
      some ({ s with dedupe := s.dedupe.mark (dedupeKey (s.job i)) now }.goto i .returned)
    | _ => none
  | .prune now => if now ≤ s.now then some { s with dedupe := s.dedupe.prune now } else none

end Foundation.Worker
