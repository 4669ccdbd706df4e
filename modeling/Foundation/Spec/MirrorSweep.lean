import Mathlib.Data.Finset.Insert
import Mathlib.Data.Finset.Basic
import Mathlib.Logic.Function.Basic
import Foundation.Spec.Record

/-! The mirror sweeper (`hermes/mirror_sweep.go`). Its wake-up: `Notify` calls on any goroutine, and
the one `Run` that sweeps, waits and sweeps what was signalled, each step one access to a source's
flag or to the wake channel. Its reads: `sweepSource` over one bounded read of a source, in batches.
The sources are registered before `Run`. -/

namespace Foundation.Hermes

open Go

/-- Where `Run` stands: in `SweepOnce` with the records swept so far, in a `sweepOne` of it, blocked
in `waitForWork`, in `sweepSignalled`, at a source found dirty, in the `sweepOne` of it, or past one
that failed. The lists are the sources that the present loop has still to visit, and a `sweepOne`
has cleared the flag of its source. -/
inductive Runner where
  | passing (total : ℕ) (rest : List String)
  | sweeping (total : ℕ) (source : String) (rest : List String)
  | waiting
  | scanning (rest : List String)
  | flagged (source : String) (rest : List String)
  | signalled (source : String) (rest : List String)
  | failed (source : String) (rest : List String)
  | stopped
deriving DecidableEq, Repr

/-- The last four fields only observe: the `Notify` calls between their flag and their send, the
sources that a `Notify` has named since their last sweep ended, the sources whose flag was raised by
a failed sweep and not cleared since, and how often a sweep of each source has started. -/
structure MirrorSweeper where
  dirty : Finset String := ∅
  wake : Bool := false
  runner : Runner
  errors : ℕ := 0
  signalledCount : ℕ := 0
  coalesced : ℕ := 0
  unroutable : ℕ := 0
  sending : ℕ := 0
  named : Finset String := ∅
  reflagged : Finset String := ∅
  attempts : String → ℕ := fun _ => 0

/-- A step of `run` is the runner's next access; the sweep that ends in it has pushed `n` records
and has failed or not. A `Notify` that raised the flag has to `send` its token. -/
inductive SweepEvent where
  | notify (name : String)
  | send
  | run (n : ℕ) (failed : Bool)
  | interval
  | cancel
deriving DecidableEq, Repr

namespace MirrorSweeper

def initial (sources : List String) : MirrorSweeper :=
  { runner := if sources = [] then .stopped else .passing 0 sources }

def notify (sources : List String) (name : String) (m : MirrorSweeper) : MirrorSweeper :=
  let name := trimSpace name
  if name ∉ sources then { m with unroutable := m.unroutable + 1 }
  else if name ∈ m.dirty then
    { m with coalesced := m.coalesced + 1, named := insert name m.named }
  else
    { m with dirty := insert name m.dirty, named := insert name m.named, sending := m.sending + 1 }

/-- The first access of `sweepOne`: `src.dirty.Store(false)`. -/
def beginSweep (m : MirrorSweeper) (source : String) (runner : Runner) : MirrorSweeper :=
  { m with
    dirty := m.dirty.erase source
    reflagged := m.reflagged.erase source
    attempts := Function.update m.attempts source (m.attempts source + 1)
    runner }

def endSweep (m : MirrorSweeper) (source : String) (failed : Bool) (runner : Runner) :
    MirrorSweeper :=
  { m with
    named := m.named.erase source
    errors := if failed then m.errors + 1 else m.errors
    runner }

def run (sources : List String) (n : ℕ) (failed : Bool) (m : MirrorSweeper) :
    Option MirrorSweeper :=
  match m.runner with
  | .passing total [] =>
    some { m with runner := if total > 0 then .passing 0 sources else .waiting }
  | .passing total (source :: rest) => some (m.beginSweep source (.sweeping total source rest))
  | .sweeping total source rest => some (m.endSweep source failed (.passing (total + n) rest))
  | .waiting => if m.wake then some { m with wake := false, runner := .scanning sources } else none
  | .scanning [] => some { m with runner := .waiting }
  | .scanning (source :: rest) =>
    if source ∈ m.dirty then
      some { m with signalledCount := m.signalledCount + 1, runner := .flagged source rest }
    else some { m with runner := .scanning rest }
  | .flagged source rest => some (m.beginSweep source (.signalled source rest))
  | .signalled source rest =>
    some (m.endSweep source failed (if failed then .failed source rest else .scanning rest))
  | .failed source rest =>
    some { m with
      dirty := insert source m.dirty
      reflagged := if source ∈ m.dirty then m.reflagged else insert source m.reflagged
      runner := .scanning rest }
  | .stopped => none

def atCheck : Runner → Bool
  | .passing _ (_ :: _) | .scanning (_ :: _) | .waiting => true
  | _ => false

def step (sources : List String) (m : MirrorSweeper) : SweepEvent → Option MirrorSweeper
  | .notify name => some (m.notify sources name)
  | .send => if 0 < m.sending then some { m with sending := m.sending - 1, wake := true } else none
  | .run n failed => m.run sources n failed
  | .interval => if m.runner = .waiting then some { m with runner := .passing 0 sources } else none
  | .cancel => if atCheck m.runner then some { m with runner := .stopped } else none

inductive Thread where
  | run | send
deriving DecidableEq, Repr

/-- `Run` stands still while it waits without a token; the interval need not elapse. -/
def Active (m : MirrorSweeper) : Thread → Prop
  | .run => m.runner ≠ .stopped ∧ (m.runner = .waiting → m.wake = true)
  | .send => 0 < m.sending

end MirrorSweeper

def SweepEvent.thread : SweepEvent → Option MirrorSweeper.Thread
  | .run _ _ => some .run
  | .send => some .send
  | .notify _ | .interval | .cancel => none

/-! ## One source -/

structure MirrorSweepOptions where
  batchSize : ℤ := 0

def MirrorSweepOptions.batch (opts : MirrorSweepOptions) : ℕ :=
  if opts.batchSize ≤ 0 then 256 else opts.batchSize.toNat

structure SourceRow where
  record : DomainRecord
  updatedAt : Time
deriving DecidableEq

/-- What a source does in one pass: the rows it visits, and whether it returns an error. `accepts`
says which of the pass's calls of `upsertRecordsConverging` succeed. -/
structure SourcePass where
  visited : List SourceRow
  failed : Bool
  accepts : ℕ → Bool

/-- The locals of `sweepSource`, with the calls of `upsertRecordsConverging` made so far and the
records that the successful ones were given. -/
structure SweepLocals where
  batch : List DomainRecord := []
  next : Time
  swept : ℕ := 0
  flushes : ℕ := 0
  pushed : List DomainRecord := []
deriving DecidableEq

namespace SweepLocals

def flush (accepts : ℕ → Bool) (l : SweepLocals) : SweepLocals × Bool :=
  if l.batch = [] then (l, false)
  else if accepts l.flushes then
    ({ l with batch := [], flushes := l.flushes + 1, pushed := l.pushed ++ l.batch }, false)
  else ({ l with flushes := l.flushes + 1 }, true)

def add (l : SweepLocals) (row : SourceRow) : SweepLocals :=
  { l with
    batch := l.batch ++ [row.record]
    swept := l.swept + 1
    next := if row.updatedAt > l.next then row.updatedAt else l.next }

def visit (opts : MirrorSweepOptions) (accepts : ℕ → Bool) (l : SweepLocals) (row : SourceRow) :
    SweepLocals × Bool :=
  if (l.add row).batch.length ≥ opts.batch then (l.add row).flush accepts else (l.add row, false)

/-- A source that goes on after an error finds the batch as the failed flush left it. -/
def visitAll (opts : MirrorSweepOptions) (accepts : ℕ → Bool) (l : SweepLocals)
    (rows : List SourceRow) :
    SweepLocals :=
  rows.foldl (fun l row => (visit opts accepts l row).1) l

end SweepLocals

structure SweepResult where
  swept : ℕ
  next : Time
  failed : Bool
  pushed : List DomainRecord
deriving DecidableEq

def sweepSource (opts : MirrorSweepOptions) (cursor : Time) (pass : SourcePass) : SweepResult :=
  let l := SweepLocals.visitAll opts pass.accepts { next := cursor } pass.visited
  if pass.failed then
    { swept := l.swept - l.batch.length, next := cursor, failed := true, pushed := l.pushed }
  else
    let flushed := l.flush pass.accepts
    if flushed.2 then
      { swept := flushed.1.swept - flushed.1.batch.length, next := cursor, failed := true
        pushed := flushed.1.pushed }
    else
      { swept := flushed.1.swept, next := flushed.1.next, failed := false,
        pushed := flushed.1.pushed }

structure MirrorSource where
  cursor : Time := 0
  pushed : List DomainRecord := []
deriving DecidableEq

def sweepOne (opts : MirrorSweepOptions) (src : MirrorSource) (pass : SourcePass) : MirrorSource :=
  let r := sweepSource opts src.cursor pass
  { cursor := if r.failed then src.cursor else r.next, pushed := src.pushed ++ r.pushed }

/-- One bounded read: the first `limit` rows after the cursor, in ascending order of `updated_at`.
-/
def Reads (rows : List SourceRow) (limit : ℕ) (cursor : Time) (read : List SourceRow) : Prop :=
  ∃ all : List SourceRow, all.Perm (rows.filter (fun row => decide (cursor < row.updatedAt))) ∧
    all.Pairwise (fun a b => a.updatedAt ≤ b.updatedAt) ∧ read = all.take limit

/-- A pass over a source that reads so: it visits the whole read, or else returns an error. -/
def Serves (rows : List SourceRow) (limit : ℕ) (cursor : Time) (pass : SourcePass) : Prop :=
  ∃ read, Reads rows limit cursor read ∧ pass.visited <+: read ∧
    (pass.failed = false → pass.visited = read)

/-- The passes over a source from the zero cursor on, each begun at a cursor that `C` allows. The
count is of the passes that swept something without an error. -/
inductive Passes (opts : MirrorSweepOptions) (rows : List SourceRow) (limit : ℕ) (C : Time → Prop) :
    MirrorSource → ℕ → Prop
  | start : Passes opts rows limit C {} 0
  | sweep {src : MirrorSource} {n : ℕ} {pass : SourcePass} : Passes opts rows limit C src n →
      Serves rows limit src.cursor pass → C src.cursor →
      Passes opts rows limit C (sweepOne opts src pass)
        (if (sweepSource opts src.cursor pass).failed = false ∧
          0 < (sweepSource opts src.cursor pass).swept
          then n + 1 else n)

end Foundation.Hermes
