import Foundation.Spec.Gateway

/-! How a subscriber reads a mutation back into a record (`hermes/contract.go`), and the value
constructors of the `database` package that it uses. The message types carry timestamps as the
instants they stand for. -/

namespace Foundation

open Go

def uintValue (value : ℕ) : RecordValue := { kind := .uint, text := value.repr }

def floatValue (formatFloat : Binary64 → String) (value : Binary64) : RecordValue :=
  { kind := .float, text := formatFloat value }

def rawValue (value : List UInt8) : RecordValue :=
  if trimBytes value = [] then { kind := .null } else { kind := .raw, raw := trimBytes value }

namespace Hermes

open Projectiongw

/-- A field's value as it stands in a message: absent, without a kind, or one of the kinds. -/
inductive WireScalar where
  | absent
  | unset
  | scalar (value : ScalarValue)

inductive MutationError where
  | nameRequired
  | duplicateField (name : String)
  | valueRequired
  | unsupportedValue
deriving DecidableEq

def scalarFromProto (n : Numerals) : WireScalar → Except MutationError RecordValue
  | .absent => .error .valueRequired
  | .unset => .error .unsupportedValue
  | .scalar (.string s) => .ok (stringValue s)
  | .scalar (.int64 i) => .ok (intValue i)
  | .scalar (.uint64 k) => .ok (uintValue k)
  | .scalar (.double f) => .ok (floatValue n.formatFloat f)
  | .scalar (.bool b) => .ok (boolValue b)
  | .scalar (.bytes b) => .ok (rawValue b)

/-- The loop of `recordFromMutation` over the fields, with the names seen and the data so far. -/
def fieldsFromProto (n : Numerals) :
    List (String × WireScalar) → List String → RecordData → Except MutationError RecordData
  | [], _, data => .ok data
  | (field, value) :: rest, seen, data =>
    let name := trimSpace field
    if name = "" then .error .nameRequired
    else if name ∈ seen then .error (.duplicateField name)
    else
      match scalarFromProto n value with
      | .error e => .error e
      | .ok v => fieldsFromProto n rest (name :: seen) (data ++ [⟨name, v⟩])

def unixEpoch : Time := 62135596800 * 1000000000

/-- A nil timestamp message arrives as an interface that is not nil, and its `AsTime` is the epoch.
-/
def timestampTime (ts : Option Time) : Time := ts.getD unixEpoch

def recordFromMutation (n : Numerals) (m : RecordMutation) : Except MutationError DomainRecord :=
  match fieldsFromProto n (m.fields.map fun field => (field.name, .scalar field.value)) [] [] with
  | .error e => .error e
  | .ok data => .ok {
      domain := trimSpace m.domain
      collection := trimSpace m.collection
      organizationID := trimSpace m.organizationID
      recordID := trimSpace m.recordID
      data := data.normalize
      vector := m.vector
      createdAt := timestampTime m.createdAt
      updatedAt := timestampTime m.updatedAt }

/-- The parsers of `strconv` read back what its formatters write; a float's text may stand for
another float of the same text, as a NaN's does. -/
structure ExactNumerals extends Numerals where
  parseInt_repr : ∀ i : ℤ, -(2 ^ 63) ≤ i → i < 2 ^ 63 → parseInt i.repr = some i
  parseUint_repr : ∀ k : ℕ, k < 2 ^ 64 → parseUint k.repr = some k
  parseFloat_format : ∀ f, ∃ g, parseFloat (formatFloat f) = some g ∧ formatFloat g = formatFloat f

/-- A value that some constructor makes. -/
inductive Constructed (n : Numerals) : RecordValue → Prop
  | string (s : String) : Constructed n (stringValue s)
  | bool (b : Bool) : Constructed n (boolValue b)
  | int (i : ℤ) : -(2 ^ 63) ≤ i → i < 2 ^ 63 → Constructed n (intValue i)
  | uint (k : ℕ) : k < 2 ^ 64 → Constructed n (uintValue k)
  | float (f : Binary64) : Constructed n (floatValue n.formatFloat f)
  | raw (b : List UInt8) : Constructed n (rawValue b)

structure StoredRecord (n : Numerals) where
  record : DomainRecord
  domain : trimSpace record.domain = record.domain
  collection : trimSpace record.collection = record.collection
  organizationID : trimSpace record.organizationID = record.organizationID
  recordID : trimSpace record.recordID = record.recordID
  normal : record.data.Normal
  constructed : ∀ field ∈ record.data, Constructed n field.value

end Hermes

end Foundation
