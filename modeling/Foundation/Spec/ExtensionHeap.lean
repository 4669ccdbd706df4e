import Foundation.Lib.Binary64
import Foundation.Lib.GoMap
import Foundation.Lib.Utf8

/-! Extension values over a heap (`extension/value.go`): an `Object` is a reference to a map that is
written in place, or nil. A slice of values is only ever copied whole here, so a list is its items.
-/

namespace Foundation.ExtensionHeap

abbrev Addr := ℕ

inductive Scalar where
  | null
  | string (s : Bytes)
  | bool (b : Bool)
  | int (i : ℤ)
  | uint (u : ℕ)
  | float (f : Binary64)
  | bytes (b : Bytes)
deriving DecidableEq

inductive Value where
  | scalar (s : Scalar)
  | list (items : List Value)
  | object (ref : Option Addr)

abbrev Fields := GoMap Bytes Value

/-- The maps by address; those from `next` on are still to be made. -/
structure Heap where
  maps : Addr → Fields
  next : Addr

namespace Heap

def make (h : Heap) : Addr × Heap := (h.next, ⟨Function.update h.maps h.next ∅, h.next + 1⟩)

def modify (h : Heap) (a : Addr) (f : Fields → Fields) : Heap :=
  { h with maps := Function.update h.maps a (f (h.maps a)) }

/-- What ranging over an object visits; a nil map has no fields. -/
def fields (h : Heap) (o : Option Addr) : Fields := (o.map h.maps).getD ∅

end Heap

/-! ### Copies -/

section
variable (clone : Heap → Option Addr → Option (Addr × Heap))

/-- `Value.Clone`, given the clone of objects. `List` copies the slice and keeps its items. -/
def cloneValue (h : Heap) : Value → Option (Value × Heap)
  | .scalar s => some (.scalar s, h)
  | .list items => some (.list items, h)
  | .object ref => (clone h ref).map fun r => (.object (some r.1), r.2)

/-- The loop of `Object.Clone` over the fields, with the map that it fills. -/
def cloneFields (out : Addr) : Heap → List (Bytes × Value) → Option Heap
  | h, [] => some h
  | h, field :: rest => do
    let (value, h) ← cloneValue clone h field.2
    cloneFields out (h.modify out (·.insert field.1 value)) rest

end

/-- `Object.Clone`. Out of fuel is out of stack, as on an object that holds itself. -/
def clone (order : RangeOrder Bytes) : ℕ → Heap → Option Addr → Option (Addr × Heap)
  | 0, _, _ => none
  | fuel + 1, h, o =>
    if (h.fields o).keys.card = 0 then some h.make
    else (cloneFields (clone order fuel) h.make.1 h.make.2 ((h.fields o).entries order)).map
      fun h' => (h.make.1, h')

def objectValue (order : RangeOrder Bytes) (fuel : ℕ) (h : Heap) : Value → Option (Addr × Heap)
  | .object ref => clone order fuel h ref
  | _ => none

def listValue : Value → Option (List Value)
  | .list items => some items
  | _ => none

def getObject (order : RangeOrder Bytes) (fuel : ℕ) (h : Heap) (o : Option Addr) (key : Bytes) :
    Option (Addr × Heap) :=
  ((h.fields o).lookup key).bind (objectValue order fuel h)

def getList (h : Heap) (o : Option Addr) (key : Bytes) : Option (List Value) :=
  ((h.fields o).lookup key).bind listValue

/-! ### Writes in place -/

inductive Write where
  | set (a : Addr) (key : Bytes) (v : Value)
  | delete (a : Addr) (key : Bytes)

def Write.target : Write → Addr
  | .set a _ _ => a
  | .delete a _ => a

def Write.apply (h : Heap) : Write → Heap
  | .set a key v => h.modify a (·.insert key v)
  | .delete a key => h.modify a (·.erase key)

/-! ### What is found in a value -/

inductive Reaches (h : Heap) : Value → Addr → Prop
  | here (a : Addr) : Reaches h (.object (some a)) a
  | item {items : List Value} {v : Value} {b : Addr} : v ∈ items → Reaches h v b →
    Reaches h (.list items) b
  | field {a b : Addr} {key : Bytes} {v : Value} : (h.maps a).lookup key = some v → Reaches h v b →
      Reaches h (.object (some a)) b

/-- The maps that can be reached through some list. -/
inductive Listed (h : Heap) : Value → Addr → Prop
  | item {items : List Value} {v : Value} {b : Addr} : v ∈ items → Reaches h v b →
    Listed h (.list items) b
  | field {a b : Addr} {key : Bytes} {v : Value} : (h.maps a).lookup key = some v → Listed h v b →
      Listed h (.object (some a)) b

/-- The values found in a value at any depth. -/
inductive Occurs (h : Heap) : Value → Value → Prop
  | here (v : Value) : Occurs h v v
  | item {items : List Value} {v w : Value} : v ∈ items → Occurs h v w → Occurs h (.list items) w
  | field {a : Addr} {key : Bytes} {v w : Value} : (h.maps a).lookup key = some v → Occurs h v w →
      Occurs h (.object (some a)) w

/-- What the copying calls on an object, and on the values and objects found in it, return. -/
inductive Copied (order : RangeOrder Bytes) (h : Heap) (o : Option Addr) : Value → Heap → Prop
  | clone {fuel : ℕ} {c : Addr} {h' : Heap} : clone order fuel h o = some (c, h') →
    Copied order h o (.object (some c)) h'
  | objectValue {v : Value} {fuel : ℕ} {c : Addr} {h' : Heap} : Occurs h (.object o) v →
      objectValue order fuel h v = some (c, h') → Copied order h o (.object (some c)) h'
  | listValue {v : Value} {items : List Value} : Occurs h (.object o) v → listValue v = some items →
      Copied order h o (.list items) h
  | getObject {o' : Option Addr} {key : Bytes} {fuel : ℕ} {c : Addr} {h' : Heap} :
    Occurs h (.object o) (.object o') →
      getObject order fuel h o' key = some (c, h') → Copied order h o (.object (some c)) h'
  | getList {o' : Option Addr} {key : Bytes} {items : List Value} :
    Occurs h (.object o) (.object o') →
      getList h o' key = some items → Copied order h o (.list items) h

/-- No writes to maps reached from a copy change the object at any depth. -/
def Independent (order : RangeOrder Bytes) (h : Heap) (o : Option Addr) : Prop :=
  ∀ copy h', Copied order h o copy h' → ∀ writes : List Write,
    (∀ w ∈ writes, Reaches h' copy w.target) →
    ∀ a, Reaches h (.object o) a → (writes.foldl Write.apply h').maps a = h.maps a

/-! ### Heaps without dangling references -/

/-- Every reference of the value is to a map below `n`. -/
inductive Below (n : Addr) : Value → Prop
  | scalar (s : Scalar) : Below n (.scalar s)
  | list {items : List Value} : (∀ v ∈ items, Below n v) → Below n (.list items)
  | object {ref : Option Addr} : (∀ a ∈ ref, a < n) → Below n (.object ref)

structure Heap.WellFormed (h : Heap) : Prop where
  unmade : ∀ a, h.next ≤ a → h.maps a = ∅
  below : ∀ a key v, (h.maps a).lookup key = some v → Below h.next v

end Foundation.ExtensionHeap
