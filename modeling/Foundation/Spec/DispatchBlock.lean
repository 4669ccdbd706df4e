import Foundation.Lib.ByteRegion
import Foundation.Lib.Reached
import Foundation.Spec.Dispatch

/-! The shared dispatch region: one publisher fills the inactive descriptor buffer row by row
and then stores the flip index; readers load the flip index and then read row by row. The Go
host (`dispatch_unix.go`) and the Rust crate (`publisher.rs`, `block.rs`) run the same steps on
the same bytes, so a publisher or reader below is one of either. -/

namespace Foundation.Dispatch

def laneRowBytes : ℕ := 64
def flipIndexOffset : ℕ := 0
def bufferBytes : ℕ := 2048
def buffersOffset : ℕ := 2112
def regionBytes : ℕ := 6208

/-! ### Rows -/

def encodeDescriptor (d : DispatchLaneDescriptor) : List UInt8 :=
  leBytes 8 d.unitClassMask.toNat ++ leBytes 8 d.affinityBloom.toNat ++ leBytes 2 d.laneId.toNat ++
    leBytes 2 d.jurisdiction.toNat ++ leBytes 4 d.maxConcurrency.toNat ++
      leBytes 4 d.generation.toNat ++
    List.replicate 36 0

def decodeDescriptor (row : List UInt8) : DispatchLaneDescriptor where
  unitClassMask := UInt64.ofNat (leNat ((row.drop 0).take 8))
  affinityBloom := UInt64.ofNat (leNat ((row.drop 8).take 8))
  laneId := UInt16.ofNat (leNat ((row.drop 16).take 2))
  jurisdiction := UInt16.ofNat (leNat ((row.drop 18).take 2))
  maxConcurrency := UInt32.ofNat (leNat ((row.drop 20).take 4))
  generation := UInt32.ofNat (leNat ((row.drop 24).take 4))

/-- An empty class mask selects nothing. -/
def retiredDescriptor (slot : ℕ) (generation : UInt32) : DispatchLaneDescriptor where
  laneId := UInt16.ofNat slot
  jurisdiction := jurisdictionGlobal
  maxConcurrency := 0
  generation := generation
  unitClassMask := 0
  affinityBloom := 0

structure Publication where
  rows : List DispatchLaneDescriptor
  generation : UInt32

namespace Publication

def row (p : Publication) (slot : ℕ) : DispatchLaneDescriptor :=
  let descriptor := (p.rows[slot]?).getD (retiredDescriptor slot p.generation)
  { descriptor with laneId := UInt16.ofNat slot, generation := p.generation }

def table (p : Publication) : List DispatchLaneDescriptor := (List.range maxLanes).map p.row

end Publication

/-! ### The region -/

def rowOffset (buffer slot : ℕ) : ℕ := buffersOffset + buffer * bufferBytes + slot * laneRowBytes

def flipIndex (m : Region) : ℕ := m.word flipIndexOffset 4

def storeFlipIndex (m : Region) (index : ℕ) : Region := m.write flipIndexOffset (leBytes 4 index)

def readRow (m : Region) (buffer slot : ℕ) : DispatchLaneDescriptor :=
  decodeDescriptor (m.read (rowOffset buffer slot) laneRowBytes)

def writeRow (m : Region) (buffer slot : ℕ) (d : DispatchLaneDescriptor) : Region :=
  m.write (rowOffset buffer slot) (encodeDescriptor d)

/-! ### Steps -/

/-- A publisher that is filling has written the slots below `slot` of the target buffer. -/
inductive Publisher where
  | idle
  | filling (p : Publication) (target slot : ℕ)

inductive Reader where
  | idle
  | reading (active : ℕ) (rows : List DispatchLaneDescriptor)

/-- The publications that were flipped in and the snapshots that were returned stand latest first.
-/
structure Board where
  region : Region
  publisher : Publisher
  readers : ℕ → Reader
  published : List Publication
  snapshots : List (List DispatchLaneDescriptor)

/-- A freshly created region file is all zeros. -/
def Board.fresh : Board where
  region := ⟨regionBytes, fun _ => 0⟩
  publisher := .idle
  readers := fun _ => .idle
  published := []
  snapshots := []

def Board.setReader (b : Board) (r : ℕ) (reader : Reader) : Board :=
  { b with readers := fun i => if i = r then reader else b.readers i }

/-- `publish` and `load` end with a load of the flip index, `flip` stores it, and `fill` and `read`
take the next row. -/
inductive BoardStep where
  | publish (p : Publication)
  | fill
  | flip
  | load (r : ℕ)
  | read (r : ℕ)

/-- `none` where the step is not the thread's next one. A call refused for its row count or a
flip index past 1 returns at once. -/
def Board.step (b : Board) : BoardStep → Option Board
  | .publish p =>
    match b.publisher with
    | .idle =>
      if p.rows.length > maxLanes then some b
      else if flipIndex b.region ≥ 2 then some b
      else some { b with publisher := .filling p (1 - flipIndex b.region) 0 }
    | .filling _ _ _ => none
  | .fill =>
    match b.publisher with
    | .filling p target slot =>
      if slot < maxLanes then
        some { b with
          region := writeRow b.region target slot (p.row slot), publisher := .filling p target (slot + 1) }
      else none
    | .idle => none
  | .flip =>
    match b.publisher with
    | .filling p target slot =>
      if slot < maxLanes then none
      else some { b with
        region := storeFlipIndex b.region target, publisher := .idle, published :=
          p :: b.published }
    | .idle => none
  | .load r =>
    match b.readers r with
    | .idle =>
      if flipIndex b.region ≥ 2 then some b
      else some (b.setReader r (.reading (flipIndex b.region) []))
    | .reading _ _ => none
  | .read r =>
    match b.readers r with
    | .reading active rows =>
      let rows := rows ++ [readRow b.region active rows.length]
      if rows.length < maxLanes then some (b.setReader r (.reading active rows))
      else some { b.setReader r .idle with snapshots := rows :: b.snapshots }
    | .idle => none

/-! ### Units in flight -/

def releaseMaxAttempts : ℕ := 8

/-- A call of `ReleaseOne`, with the changes of the word before it began and the attempts left after
this one. -/
inductive Release where
  | idle
  | loading (since left : ℕ)
  | swapping (since left current : ℕ)
  | returned (released : Bool)
  | contended (since : ℕ)

def Release.attempt (since : ℕ) : ℕ → Release
  | 0 => .contended since
  | left + 1 => .loading since left

/-- The word of a statistics row, the units claimed and released so far, and the calls. -/
structure Inflight where
  word : ℕ := 0
  claimed : ℕ := 0
  released : ℕ := 0
  calls : ℕ → Release := fun _ => .idle

namespace Inflight

inductive Access where
  | claim
  /-- That of the Rust crate, whose retries change nothing. -/
  | releaseOne
  | begin (i : ℕ)
  | load (i : ℕ)
  | swap (i : ℕ)

def goTo (s : Inflight) (i : ℕ) (call : Release) : Inflight :=
  { s with calls := Function.update s.calls i call }

def take (s : Inflight) : Inflight := { s with word := s.word - 1, released := s.released + 1 }

/-- An access that is not the call's next one changes nothing. -/
def step (s : Inflight) : Access → Inflight
  | .claim => { s with word := (s.word + 1) % 2 ^ 32, claimed := s.claimed + 1 }
  | .releaseOne => if s.word = 0 then s else s.take
  | .begin i =>
    match s.calls i with
    | .idle => s.goTo i (.attempt (s.claimed + s.released) releaseMaxAttempts)
    | _ => s
  | .load i =>
    match s.calls i with
    | .loading since left =>
      s.goTo i (if s.word = 0 then .returned false else .swapping since left s.word)
    | _ => s
  | .swap i =>
    match s.calls i with
    | .swapping since left current =>
      if s.word = current then s.take.goTo i (.returned true) else s.goTo i (.attempt since left)
    | _ => s

end Inflight

end Foundation.Dispatch
