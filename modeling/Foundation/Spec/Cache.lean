import Foundation.Lib.GoMap
import Foundation.Lib.Reached

/-! `Get` and `Set` of `cache.go` with the penetration guard, by their accesses to the memo of
misses and to the backend. A full key stands for the key of a call; a time is a number. -/

namespace Foundation.Cache

/-! ### `missMemo` -/

structure MissMemo where
  entries : GoMap String ℤ
  max : ℤ
  ttl : ℤ

def newMissMemo (maxEntries ttl : ℤ) : MissMemo :=
  ⟨∅, if maxEntries ≤ 0 then 10000 else maxEntries, if ttl ≤ 0 then 2000000000 else ttl⟩

namespace MissMemo

/-- The answer, and the memo without the key if its entry had expired. -/
def has (m : MissMemo) (key : String) (now : ℤ) : Bool × MissMemo :=
  match m.entries.lookup key with
  | none => (false, m)
  | some expiry =>
    if expiry < now then (false, { m with entries := m.entries.erase key }) else (true, m)

def dropExpired (now : ℤ) (kept : GoMap String ℤ) (entry : String × ℤ) : GoMap String ℤ :=
  if entry.2 < now then kept.erase entry.1 else kept

def add (o : RangeOrder String) (m : MissMemo) (key : String) (now : ℤ) : MissMemo :=
  if m.max ≤ m.entries.keys.card then
    let kept := (GoMap.entries o m.entries).foldl (dropExpired now) m.entries
    if m.max ≤ kept.keys.card then { m with entries := kept }
    else { m with entries := kept.insert key (now + m.ttl) }
  else { m with entries := m.entries.insert key (now + m.ttl) }

def forget (m : MissMemo) (key : String) : MissMemo := { m with entries := m.entries.erase key }

end MissMemo

/-! ### Calls -/

/-- What a `Get` returns; the data it found may still fail to decode. -/
inductive Outcome (Data : Type) where
  | notFound
  | failed
  | found (data : Data)
deriving DecidableEq

/-- Where a call stands; `late` says of a `Get` that a `Set` of its key had succeeded before it
began. -/
inductive Phase (Data : Type) where
  | idle
  | checking (key : String) (late : Bool)
  | reading (key : String) (late : Bool)
  | missed (key : String) (late : Bool)
  | forgetting (key : String) (data : Option Data)
  | storing (key : String) (data : Data)
deriving DecidableEq

structure Answer (Data : Type) where
  late : Bool
  outcome : Outcome Data
deriving DecidableEq

structure State (Data : Type) where
  misses : MissMemo
  backend : GoMap String Data
  phase : ℕ → Phase Data
  stored : List String
  answers : List (Answer Data)

/-- The data of a `Set` is what `Marshal` makes of its value, if it can. -/
inductive Event (Data : Type) where
  | get (caller : ℕ) (key : String)
  | check (caller : ℕ) (now : ℤ)
  | read (caller : ℕ) (fails : Bool)
  | memoize (caller : ℕ) (now : ℤ)
  | set (caller : ℕ) (key : String) (data : Option Data)
  | forget (caller : ℕ)
  | store (caller : ℕ) (applied succeeds : Bool)

variable {Data : Type}

def State.goTo (s : State Data) (caller : ℕ) (phase : Phase Data) : State Data :=
  { s with phase := Function.update s.phase caller phase }

def State.answer (s : State Data) (caller : ℕ) (late : Bool) (outcome : Outcome Data) :
    State Data :=
  { s.goTo caller .idle with answers := ⟨late, outcome⟩ :: s.answers }

def step (o : RangeOrder String) (s : State Data) : Event Data → Option (State Data)
  | .get caller key =>
    match s.phase caller with
    | .idle => some (s.goTo caller (.checking key (s.stored.contains key)))
    | _ => none
  | .check caller now =>
    match s.phase caller with
    | .checking key late =>
      let checked := s.misses.has key now
      let s := { s with misses := checked.2 }
      some (if checked.1 then s.answer caller late .notFound else s.goTo caller (.reading key late))
    | _ => none
  | .read caller fails =>
    match s.phase caller with
    | .reading key late =>
      if fails then some (s.answer caller late .failed)
      else match s.backend.lookup key with
        | none => some (s.goTo caller (.missed key late))
        | some data => some (s.answer caller late (.found data))
    | _ => none
  | .memoize caller now =>
    match s.phase caller with
    | .missed key late =>
      some ({ s with misses := s.misses.add o key now }.answer caller late .notFound)
    | _ => none
  | .set caller key data =>
    match s.phase caller with
    | .idle => some (s.goTo caller (.forgetting key data))
    | _ => none
  | .forget caller =>
    match s.phase caller with
    | .forgetting key data =>
      some ({ s with misses := s.misses.forget key }.goTo caller
        ((data.map (Phase.storing key)).getD .idle))
    | _ => none
  | .store caller applied succeeds =>
    -- A failed write may or may not have reached the backend.
    match s.phase caller with
    | .storing key data =>
      if succeeds && !applied then none
      else
        some ({ s with
          backend := if applied then s.backend.insert key data else s.backend
          stored := if succeeds then key :: s.stored else s.stored }.goTo caller .idle)
    | _ => none

def init (misses : MissMemo) : State Data := ⟨misses, ∅, fun _ => .idle, [], []⟩

end Foundation.Cache
