import Foundation.Lib.Reached
import Mathlib.Data.List.FinRange
import Mathlib.Tactic

/-! `Racer` of `ovrt-network/src/race.rs`: the calls of `race`, one at a time behind the lock of the
inbox, and a worker thread for each path, by their accesses to the busy flags and the channels. A
path is named by its index. -/

namespace Foundation.Racer

def maxRacedFrameBytes : ℕ := 4096

inductive NetworkError where
  | frameTooLarge (bytes limit : ℕ)
  | allPathsBusy
  | pathsUnavailable
deriving DecidableEq, Repr

structure Job where
  frame : List UInt8
  seq : ℕ
deriving DecidableEq, Repr

structure Attempt (n : ℕ) where
  label : Fin n
  error : Option String
  seq : ℕ
deriving DecidableEq, Repr

def Attempt.succeeded {n : ℕ} (a : Attempt n) : Bool := a.error.isNone

structure RaceOutcome (n : ℕ) where
  winner : Option (Fin n)
  dispatched : ℕ
  attempts : List (Attempt n)
deriving DecidableEq, Repr

/-- Where the thread of `run_worker` stands; it is gone once a send has panicked. -/
inductive Thread where
  | receiving
  | sending (job : Job)
  | sent (job : Job) (error : Option String)
  | released (job : Job) (error : Option String)
  | gone
deriving DecidableEq, Repr

structure Worker where
  busy : Bool := false
  jobs : List Job := []
  thread : Thread := .receiving
deriving DecidableEq, Repr

/-- Where a call of `race` stands that has the lock. -/
inductive Phase (n : ℕ) where
  | dispatching (todo : List (Fin n))
  | claimed (i : Fin n) (todo : List (Fin n))
  | collecting
deriving DecidableEq, Repr

/-- The locals of a call; `dispatched` lists the paths that the source counts. -/
structure Race (n : ℕ) where
  frame : List UInt8
  seq : ℕ
  phase : Phase n := .dispatching (List.finRange n)
  dispatched : List (Fin n) := []
  busy : ℕ := 0
  dead : ℕ := 0
  attempts : List (Attempt n) := []
  expired : Bool := false
deriving DecidableEq, Repr

inductive Reply (n : ℕ) where
  | err (error : NetworkError)
  | ok (race : Race n) (outcome : RaceOutcome n)
deriving DecidableEq, Repr

/-- The racer, with the sends that have succeeded and the replies that have been given. `seq` is a
`u64` of the source, so the model is its runs of fewer than `2 ^ 64` races. -/
structure State (n : ℕ) where
  workers : Fin n → Worker := fun _ => {}
  inbox : List (Attempt n) := []
  seq : ℕ := 0
  race : Option (Race n) := none
  delivered : List (Fin n × Job) := []
  replies : List (Reply n) := []

inductive Event (n : ℕ) where
  | call (frame : List UInt8)
  | claim | post | collect
  | receive | deadline | giveUp
  | take (i : Fin n)
  | returns (i : Fin n) (error : Option String)
  | panics (i : Fin n)
  | release (i : Fin n)
  | publish (i : Fin n)

variable {n : ℕ}

def State.setWorker (s : State n) (i : Fin n) (w : Worker) : State n :=
  { s with workers := Function.update s.workers i w }

def State.setRace (s : State n) (race : Race n) : State n := { s with race := some race }

def State.reply (s : State n) (reply : Reply n) : State n :=
  { s with race := none, replies := s.replies ++ [reply] }

def Race.job (race : Race n) : Job := ⟨race.frame, race.seq⟩

def Race.noneDispatched (race : Race n) : NetworkError :=
  if race.dead > 0 ∧ race.busy = 0 then .pathsUnavailable else .allPathsBusy

def Race.outcome (race : Race n) (winner : Option (Fin n)) : RaceOutcome n :=
  ⟨winner, race.dispatched.length, race.attempts⟩

def call (s : State n) (frame : List UInt8) : Option (State n) :=
  if frame.length > maxRacedFrameBytes then
    some { s with replies := s.replies ++ [.err (.frameTooLarge frame.length maxRacedFrameBytes)] }
  else match s.race with
    | some _ => none
    | none => some { s with seq := s.seq + 1, race := some { frame, seq := s.seq } }

def raceStep (s : State n) (race : Race n) : Event n → Option (State n)
  | .claim =>
    match race.phase with
    | .dispatching (i :: todo) =>
      if (s.workers i).busy then
        some (s.setRace { race with busy := race.busy + 1, phase := .dispatching todo })
      else some ((s.setWorker i { s.workers i with busy := true }).setRace
        { race with phase := .claimed i todo })
    | _ => none
  | .post =>
    match race.phase with
    | .claimed i todo =>
      if (s.workers i).thread = .gone then
        some ((s.setWorker i { s.workers i with busy := false }).setRace
          { race with dead := race.dead + 1, phase := .dispatching todo })
      else
        some ((s.setWorker i { s.workers i with jobs := (s.workers i).jobs ++ [race.job] }).setRace
          { race with dispatched := race.dispatched ++ [i], phase := .dispatching todo })
    | _ => none
  | .collect =>
    match race.phase with
    | .dispatching [] =>
      if race.dispatched = [] then some (s.reply (.err race.noneDispatched))
      else some (s.setRace { race with phase := .collecting })
    | _ => none
  | .receive =>
    match race.phase, s.inbox with
    | .collecting, attempt :: rest =>
      if race.attempts.length < race.dispatched.length then
        let s := { s with inbox := rest }
        let received := { race with attempts := race.attempts ++ [attempt] }
        if attempt.seq ≠ race.seq then some s
        else if attempt.succeeded then
          some (s.reply (.ok received (received.outcome (some attempt.label))))
        else some (s.setRace received)
      else none
    | _, _ => none
  | .deadline => some (s.setRace { race with expired := true })
  | .giveUp =>
    -- All have reported, or `recv_timeout` has run out of time, or of senders.
    if race.phase = .collecting ∧ (race.dispatched.length ≤ race.attempts.length ∨ race.expired ∨
        s.inbox = [] ∧ ∀ i, (s.workers i).thread = .gone) then
      some (s.reply (.ok race (race.outcome none)))
    else none
  | _ => none

def workerStep (s : State n) : Event n → Option (State n)
  | .take i =>
    match (s.workers i).thread, (s.workers i).jobs with
    | .receiving, job :: jobs =>
      some (s.setWorker i { s.workers i with jobs, thread := .sending job })
    | _, _ => none
  | .returns i error =>
    match (s.workers i).thread with
    | .sending job =>
      let s := s.setWorker i { s.workers i with thread := .sent job error }
      some (if error = none then { s with delivered := s.delivered ++ [(i, job)] } else s)
    | _ => none
  | .panics i =>
    match (s.workers i).thread with
    | .sending _ => some (s.setWorker i { s.workers i with thread := .gone })
    | _ => none
  | .release i =>
    match (s.workers i).thread with
    | .sent job error =>
      some (s.setWorker i { s.workers i with busy := false, thread := .released job error })
    | _ => none
  | .publish i =>
    match (s.workers i).thread with
    | .released job error =>
      let s := s.setWorker i { s.workers i with thread := .receiving }
      some { s with inbox := s.inbox ++ [⟨i, error, job.seq⟩] }
    | _ => none
  | _ => none

def step (s : State n) : Event n → Option (State n)
  | .call frame => call s frame
  | .claim => s.race.bind (raceStep s · .claim)
  | .post => s.race.bind (raceStep s · .post)
  | .collect => s.race.bind (raceStep s · .collect)
  | .receive => s.race.bind (raceStep s · .receive)
  | .deadline => s.race.bind (raceStep s · .deadline)
  | .giveUp => s.race.bind (raceStep s · .giveUp)
  | e => workerStep s e

end Foundation.Racer
