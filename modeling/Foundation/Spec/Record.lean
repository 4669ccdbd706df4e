import Foundation.Lib.GoStd

/-! Domain records and their field data, as the `database` package defines them.
Copies made only to avoid sharing (`Clone`, `copyRecord`) are the identity here. -/

namespace Foundation

open Go

/-- Nanoseconds since Go's zero time, so that `IsZero` is equality with `0`. -/
abbrev Time := ℤ

inductive RecordValueKind where
  | null | string | bool | int | uint | float | raw
deriving DecidableEq, Repr

structure RecordValue where
  kind : RecordValueKind
  text : String := ""
  raw : List UInt8 := []
deriving DecidableEq, Repr

structure RecordField where
  name : String
  value : RecordValue
deriving DecidableEq, Repr

abbrev RecordData := List RecordField

structure RecordFilter where
  field : String
  value : RecordValue
deriving DecidableEq, Repr

structure RecordQuery where
  filters : List RecordFilter := []
  limit : ℤ := 0
deriving DecidableEq, Repr

/-- Vector components are kept as their 32 bits. -/
structure DomainRecord where
  domain : String
  collection : String
  organizationID : String
  recordID : String
  data : RecordData := []
  vector : List UInt32 := []
  createdAt : Time := 0
  updatedAt : Time := 0
deriving DecidableEq, Repr

def stringValue (value : String) : RecordValue := { kind := .string, text := value }

def boolValue (value : Bool) : RecordValue :=
  { kind := .bool, text := if value then "true" else "false" }

def intValue (value : ℤ) : RecordValue := { kind := .int, text := value.repr }

/-- The UTF-8 encodings of the white space code points. -/
def spaceEncodings : List (List UInt8) :=
  [[0x09], [0x0A], [0x0B], [0x0C], [0x0D], [0x20], [0xC2, 0x85], [0xC2, 0xA0], [0xE1, 0x9A, 0x80],
    [0xE2, 0x80, 0x80], [0xE2, 0x80, 0x81], [0xE2, 0x80, 0x82], [0xE2, 0x80, 0x83],
    [0xE2, 0x80, 0x84],
    [0xE2, 0x80, 0x85], [0xE2, 0x80, 0x86], [0xE2, 0x80, 0x87], [0xE2, 0x80, 0x88],
    [0xE2, 0x80, 0x89],
    [0xE2, 0x80, 0x8A], [0xE2, 0x80, 0xA8], [0xE2, 0x80, 0xA9], [0xE2, 0x80, 0xAF],
    [0xE2, 0x81, 0x9F],
    [0xE3, 0x80, 0x80]]

def trimLeftBytes : ℕ → List UInt8 → List UInt8
  | 0, l => l
  | fuel + 1, l =>
    match spaceEncodings.find? (·.isPrefixOf l) with
    | some e => trimLeftBytes fuel (l.drop e.length)
    | none => l

def trimRightBytes : ℕ → List UInt8 → List UInt8
  | 0, l => l
  | fuel + 1, l =>
    match spaceEncodings.find? (·.isSuffixOf l) with
    | some e => trimRightBytes fuel (l.take (l.length - e.length))
    | none => l

def trimBytes (l : List UInt8) : List UInt8 := trimRightBytes l.length (trimLeftBytes l.length l)

/-- The kind tag and canonical text under which a scalar value is indexed. -/
def RecordValue.scalarIndex (v : RecordValue) : Option (Char × String) :=
  match v.kind with
  | .string => some ('s', v.text)
  | .bool => if equalFold v.text "true" || v.text == "1" then some ('b', "1") else some ('b', "0")
  | .int => some ('i', trimSpace v.text)
  | .uint => some ('u', trimSpace v.text)
  | .float => some ('f', trimSpace v.text)
  | .null | .raw => none

def RecordValue.equal (v other : RecordValue) : Bool :=
  match v.scalarIndex, other.scalarIndex with
  | some a, some b => a == b
  | _, _ =>
    if v.kind ≠ other.kind then false
    else if v.kind = .raw then trimBytes v.raw == trimBytes other.raw
    else trimSpace v.text == trimSpace other.text

namespace RecordData

def isSortedUniqueFrom (previous : String) : RecordData → Bool
  | [] => true
  | field :: rest =>
    let name := trimSpace field.name
    if name = "" ∨ ¬ previous < name then false else isSortedUniqueFrom name rest

def isSortedUnique (d : RecordData) : Bool := isSortedUniqueFrom "" d

/-- One round of the deduplicating loop of `Normalize`: a later field takes the place
of an earlier one of the same name. -/
def putField (out : RecordData) (field : RecordField) : RecordData :=
  let name := trimSpace field.name
  if name = "" then out
  else if out.any (·.name == name) then
    out.map fun g => if g.name = name then { field with name := name } else g
  else out ++ [{ field with name := name }]

def normalize (d : RecordData) : RecordData :=
  if d.isSortedUnique then d.map fun field => { field with name := trimSpace field.name }
  else (d.foldl putField []).insertionSort fun a b => a.name ≤ b.name

def get (d : RecordData) (name : String) : Option RecordValue :=
  (d.find? (·.name == trimSpace name)).map (·.value)

def withField (d : RecordData) (name : String) (value : RecordValue) : RecordData :=
  normalize (d ++ [⟨name, value⟩])

def mergeLoop : ℕ → RecordData → RecordData → RecordData
  | 0, _, _ => []
  | _ + 1, [], overrides => overrides
  | _ + 1, base, [] => base
  | fuel + 1, left :: base, right :: overrides =>
    if left.name < right.name then left :: mergeLoop fuel base (right :: overrides)
    else if right.name < left.name then right :: mergeLoop fuel (left :: base) overrides
    else right :: mergeLoop fuel base overrides

def merge (d patch : RecordData) : RecordData :=
  let base := d.normalize
  let overrides := patch.normalize
  mergeLoop (base.length + overrides.length + 1) base overrides

def «matches» (d : RecordData) (filters : List RecordFilter) : Bool :=
  filters.all fun filter =>
    match d.get filter.field with
    | none => false
    | some actual => actual.equal filter.value

end RecordData

/-- The data `normalizeRecord` stores: normalized, with the organization stamped in.
Data that is already sorted keeps its field names as they are. -/
def normalizeRecordDataWithOrganization (data : RecordData) (organizationID : String) :
    RecordData :=
  let orgValue := stringValue organizationID
  if data.isSortedUnique then
    let idx := search data.length fun i => "organization_id" ≤ (data.map (·.name)).getD i ""
    match data[idx]? with
    | some field =>
      if field.name = "organization_id" then
        if field.value.equal orgValue then data else data.set idx { field with value := orgValue }
      else data.take idx ++ ⟨"organization_id", orgValue⟩ :: data.drop idx
    | none => data.take idx ++ ⟨"organization_id", orgValue⟩ :: data.drop idx
  else
    let normalized := data.normalize
    let idx :=
      search normalized.length fun i => "organization_id" ≤ (normalized.map (·.name)).getD i ""
    match normalized[idx]? with
    | some field =>
      if field.name = "organization_id" then normalized.set idx { field with value := orgValue }
      else normalized.take idx ++ ⟨"organization_id", orgValue⟩ :: normalized.drop idx
    | none => normalized.take idx ++ ⟨"organization_id", orgValue⟩ :: normalized.drop idx

def estimateValueBytes (value : RecordValue) : ℕ :=
  if value.raw.length > 0 then value.raw.length else value.text.utf8ByteSize

def estimateRecordBytes (rec : DomainRecord) : ℤ :=
  ((rec.domain.utf8ByteSize + rec.collection.utf8ByteSize + rec.organizationID.utf8ByteSize +
    rec.recordID.utf8ByteSize + rec.vector.length * 4 +
    (rec.data.map fun field => field.name.utf8ByteSize + estimateValueBytes field.value + 32).sum +
      128 : ℕ) : ℤ)

end Foundation
