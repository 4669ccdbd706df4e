import Foundation.Lib.DeltaChain
import Foundation.Spec.Types

/-! The published index snapshots of a partition and the per-batch publisher that
extends them. A snapshot is the list of its layers, newest first, so that `base` is the
tail and the nil pointer is the empty list. -/

namespace Foundation.Hermes

open Go DeltaChain

def maxIndexDeltaDepth : ℕ := 512

structure RecordOrderEntry where
  key : String
  version : ℕ
deriving DecidableEq, Repr

structure IndexLayer extends Delta String where
  order : List RecordOrderEntry
  size : ℕ
  depth : ℕ

abbrev IndexSnapshot := List IndexLayer

def emptyIndex : IndexSnapshot := [⟨⟨∅, ∅⟩, [], 0, 0⟩]

structure FieldIndex where
  scope : RecordScope
  filter : QueryFilter
deriving DecidableEq, Repr

/-- The index cells of a registry: one per tenant scope and one per indexed value. -/
inductive IndexKey where
  | scope (scope : RecordScope)
  | field (index : FieldIndex)
deriving DecidableEq, Repr

structure IndexChange where
  adds : Finset String := ∅
  removes : Finset String := ∅
  order : List RecordOrderEntry := []
  delta : ℤ := 0

abbrev IndexPublisher := GoMap IndexKey IndexChange

def IndexPublisher.change (p : IndexPublisher) (cell : IndexKey) : IndexChange :=
  (p.lookup cell).getD {}

def IndexChange.add (change : IndexChange) (entry : RecordOrderEntry) : IndexChange :=
  { adds := insert entry.key change.adds
    removes := change.removes.erase entry.key
    order := change.order ++ [entry]
    delta := if entry.key ∈ change.removes ∨ entry.key ∉ change.adds then change.delta + 1
      else change.delta }

def IndexChange.remove (change : IndexChange) (key : String) : IndexChange :=
  if key ∈ change.adds then { change with adds := change.adds.erase key, delta := change.delta - 1 }
  else if key ∈ change.removes then change
  else { change with removes := insert key change.removes, delta := change.delta - 1 }

def IndexPublisher.add (p : IndexPublisher) (cell : IndexKey) (entry : RecordOrderEntry) :
    IndexPublisher :=
  p.insert cell ((p.change cell).add entry)

def IndexPublisher.remove (p : IndexPublisher) (cell : IndexKey) (key : String) : IndexPublisher :=
  p.insert cell ((p.change cell).remove key)

namespace IndexSnapshot

def len : IndexSnapshot → ℕ
  | [] => 0
  | top :: _ => top.size

def depth : IndexSnapshot → ℕ
  | [] => 0
  | top :: _ => top.depth

def deltas (s : IndexSnapshot) : List (Delta String) := s.map (·.toDelta)

def forEachKeyReconciled (o : RangeOrder String) (s : IndexSnapshot) : List String :=
  walk o ∅ (deltas s)

/-- The keys `forEachKey` offers its callback, in order. The flat snapshot and the chain
over a flat base have loops of their own. -/
def forEachKey (o : RangeOrder String) (s : IndexSnapshot) : List String :=
  match s with
  | [] => []
  | top :: base =>
    if top.size = 0 then []
    else if top.removes = ∅ ∧ len base = 0 then o.visit top.adds
    else
      let terminal := (top :: base).getLast (by simp)
      let layers := (top :: base).dropLast
      let touched := (layers.map fun l => l.adds.card + l.removes.card).sum
      if terminal.removes ≠ ∅ ∨ terminal.size ≤ touched then forEachKeyReconciled o (top :: base)
      else walkSplit o (deltas layers) terminal.toDelta

def forEachOrderDesc (s : IndexSnapshot) : List RecordOrderEntry := s.flatMap (·.order.reverse)

def compactKeys (s : IndexSnapshot) : Finset String := compact (deltas s)

/-- The newest order entry of every key in `keys`, newest first. -/
def newestEntries (keys : Finset String) : Finset String → List RecordOrderEntry →
  List RecordOrderEntry
  | _, [] => []
  | seen, entry :: rest =>
    if entry.key ∉ keys ∨ entry.key ∈ seen then newestEntries keys seen rest
    else entry :: newestEntries keys (insert entry.key seen) rest

def compactOrderEntries (s : IndexSnapshot) (keys : Finset String) : List RecordOrderEntry :=
  (newestEntries keys ∅ (forEachOrderDesc s)).reverse

def compactIndexSnapshot (s : IndexSnapshot) : IndexSnapshot :=
  if depth s ≤ maxIndexDeltaDepth then s
  else
    let keys := compactKeys s
    [⟨⟨keys, ∅⟩, compactOrderEntries s keys, keys.card, 0⟩]

/-- The layer a change becomes on top of the snapshot it was collected against. -/
def layer (old : IndexSnapshot) (change : IndexChange) : IndexLayer where
  adds := change.adds
  removes := change.removes
  order := change.order.filter (·.key ∈ change.adds)
  size := (len old + change.delta).toNat
  depth := depth old + 1

def publishCell (old : IndexSnapshot) (change : IndexChange) : IndexSnapshot :=
  compactIndexSnapshot (layer old change :: old)

end IndexSnapshot

open IndexSnapshot in
/-- The snapshots after `publish`. Cells are independent of each other, so the order in
which the changes are visited does not matter. -/
def IndexPublisher.publish (p : IndexPublisher) (indexes : IndexKey → IndexSnapshot) :
    IndexKey → IndexSnapshot :=
  fun cell => match p.lookup cell with
    | none => indexes cell
    | some change => publishCell (indexes cell) change

/-- The cells a record is listed in. -/
def indexKeysOf (spec : ProjectionSpec) (rec : DomainRecord) : List IndexKey :=
  let scope := scopeKey rec.domain rec.collection rec.organizationID
  .scope scope :: (forEachIndexedField rec spec).map fun filter => .field ⟨scope, filter⟩

end Foundation.Hermes
