import Foundation.Lib.NamedFields
import Foundation.Sanity.TrimBytes
import Foundation.Spec.ExtensionJson

/-! The JSON codec of record data (`database/record_data.go`). Names and texts are byte strings
here, as Go's strings are. -/

namespace Foundation.RecordJson

open Json (nullText boolText beginObject endObject nameSeparator valueSeparator)
open Strconv (appendQuote appendInt appendUint)
open ExtensionJson (Std consumeByte skipSpace parseString parseValue)

structure Value where
  kind : RecordValueKind
  text : Bytes := []
  raw : Bytes := []
deriving DecidableEq

def stringValue (value : Bytes) : Value := { kind := .string, text := value }

def boolValue (value : Bool) : Value := { kind := .bool, text := boolText value }

def intValue (value : ℤ) : Value := { kind := .int, text := appendInt [] value }

def uintValue (value : ℕ) : Value := { kind := .uint, text := appendUint [] value }

def floatValue (std : Std) (value : Binary64) : Value :=
  { kind := .float, text := std.formatFloat value }

def rawValue (value : Bytes) : Value :=
  if trimBytes value = [] then { kind := .null } else { kind := .raw, raw := trimBytes value }

def lowerByte (b : UInt8) : UInt8 := if 0x41 ≤ b ∧ b ≤ 0x5A then b + 0x20 else b

/-- `strings.EqualFold(text, "true") || text == "1"`; no other letter folds to one of `true`. -/
def isTrue (text : Bytes) : Bool := text.map lowerByte == boolText true || text == [0x31]

def Value.scalarIndex (v : Value) : Option (Char × Bytes) :=
  match v.kind with
  | .string => some ('s', v.text)
  | .bool => some ('b', if isTrue v.text then [0x31] else [0x30])
  | .int => some ('i', trimBytes v.text)
  | .uint => some ('u', trimBytes v.text)
  | .float => some ('f', trimBytes v.text)
  | .null | .raw => none

def Value.equal (v other : Value) : Bool :=
  match v.scalarIndex, other.scalarIndex with
  | some a, some b => a == b
  | _, _ =>
    if v.kind ≠ other.kind then false
    else if v.kind = .raw then trimBytes v.raw == trimBytes other.raw
    else trimBytes v.text == trimBytes other.text

def parseUint (s : Bytes) : Option ℕ := (Json.natural? s).filter fun n => decide (n < 2 ^ 64)

/-- The text of a value, none when its number does not parse. -/
def Value.marshalJSON (std : Std) (v : Value) : Option Bytes :=
  match v.kind with
  | .null => some nullText
  | .string => some (appendQuote std.printable [] v.text)
  | .bool => some (boolText (isTrue v.text))
  | .int => (Strconv.parseInt (trimBytes v.text)).map fun _ => trimBytes v.text
  | .uint => (parseUint (trimBytes v.text)).map fun _ => trimBytes v.text
  | .float => (std.parseFloat (trimBytes v.text)).toOption.map fun _ => trimBytes v.text
  | .raw => some (if trimBytes v.raw = [] then nullText else trimBytes v.raw)

abbrev Data := List (Bytes × Value)

/-- Names are trimmed and compared byte by byte. -/
def naming : Naming (Bytes × Value) (List ℕ) where
  key field := field.1.map UInt8.toNat
  trimmed field := (trimBytes field.1, field.2)
  blank := []
  trimmed_trimmed field := congrArg (·, field.2) (trimBytes_trimBytes field.1)
  blank_le field := by
    cases field.1 with
    | nil => exact le_rfl
    | cons b name => exact le_of_lt List.Lex.nil

def normalize (d : Data) : Data := naming.normalize d

/-- The loop of `MarshalJSON` over the fields, with the buffer so far. -/
def marshalFields (std : Std) : Bool → Bytes → Data → Option Bytes
  | _, b, [] => some b
  | first, b, field :: rest =>
    (field.2.marshalJSON std).bind fun value =>
      marshalFields std false
        (appendQuote std.printable (if first then b else b ++ [valueSeparator]) field.1 ++
          nameSeparator :: value) rest

def marshalJSON (std : Std) (d : Data) : Option Bytes :=
  if d = [] then some [beginObject, endObject]
  else (marshalFields std true [beginObject] (normalize d)).map (· ++ [endObject])

/-- The loop of `ForEachObjectField`, with the fields visited so far. -/
def visitFields (std : Std) (size : ℕ) :
    ℕ → List (Bytes × ExtensionJson.Value) → Bytes →
      Except String (List (Bytes × ExtensionJson.Value) × Bytes)
  | 0, _, _ => .error "EOF"
  | fuel + 1, out, s => do
    let (key, rest) ← parseString s
    match consumeByte nameSeparator (skipSpace rest) with
    | none => .error "extension object key must be followed by ':'"
    | some rest =>
      let (value, rest) ← parseValue std size fuel rest
      match consumeByte endObject (skipSpace rest) with
      | some rest => .ok (out ++ [(key, value)], rest)
      | none =>
        match consumeByte valueSeparator (skipSpace rest) with
        | none => .error "extension object fields must be separated by ','"
        | some rest => visitFields std size fuel (out ++ [(key, value)]) rest

/-- The fields that `ForEachObjectField` visits, for a visitor that does not fail. -/
def forEachObjectField (std : Std) (data : Bytes) :
    Except String (List (Bytes × ExtensionJson.Value)) :=
  let trimmed := trimBytes data
  if trimmed = [] then .error "empty JSON data"
  else
    match consumeByte beginObject (skipSpace trimmed) with
    | none => .error "JSON data must be an object"
    | some rest =>
      match consumeByte endObject (skipSpace rest) with
      | some rest =>
        if skipSpace rest = [] then .ok [] else .error "extension JSON contains trailing data"
      | none => do
        let (fields, rest) ← visitFields std trimmed.length (2 * trimmed.length) [] (skipSpace rest)
        if skipSpace rest = [] then .ok fields else .error "extension JSON contains trailing data"

def recordValueFromExtension (std : Std) : ExtensionJson.Value → Value
  | .null => { kind := .null }
  | .string text => stringValue text
  | .bool b => boolValue b
  | .int i => intValue i
  | .uint u => uintValue u
  | .float f => floatValue std f
  | value => rawValue (ExtensionJson.marshalJSON std value)

/-- The names come in increasing order, trimmed and not blank. -/
def isSorted : Option Bytes → Data → Bool
  | _, [] => true
  | prevKey, field :: rest =>
    decide ((∀ key ∈ prevKey, Json.keyLess key field.1) ∧ field.1 ≠ [] ∧
      field.1 = trimBytes field.1) &&
      isSorted (some field.1) rest

def unmarshalJSON (std : Std) (data : Bytes) : Except String Data :=
  let trimmed := trimBytes data
  if trimmed = [] ∨ trimmed = nullText then .ok []
  else if trimmed.length < 2 ∨ trimmed.head? ≠ some beginObject ∨
    trimmed.getLast? ≠ some endObject then
    .error "record data must be a json object"
  else do
    let visited ← forEachObjectField std trimmed
    let fields : Data := visited.map fun field => (field.1, recordValueFromExtension std field.2)
    .ok (if isSorted none fields then fields else normalize fields)

/-! ### What the constructors build -/

/-- The laws of `strconv` on the texts of finite floats: they are numbers of JSON and read back. -/
structure FloatStd extends Std where
  format_number : ∀ f : Binary64, f.isNaN = false → f.isInf = false → Json.IsNumber (formatFloat f)
  parse_format : ∀ f : Binary64, f.isNaN = false → f.isInf = false →
    ∃ g, parseFloat (formatFloat f) = .ok g ∧ formatFloat g = formatFloat f

/-- A value that some constructor builds, from a finite float or from JSON, whose strings may hold
any bytes. -/
inductive Constructed (std : Std) : Value → Prop
  | null : Constructed std { kind := .null }
  | string (s : Bytes) : Constructed std (stringValue s)
  | bool (b : Bool) : Constructed std (boolValue b)
  | int {i : ℤ} : -2 ^ 63 ≤ i → i < 2 ^ 63 → Constructed std (intValue i)
  | uint {k : ℕ} : k < 2 ^ 64 → Constructed std (uintValue k)
  | float {f : Binary64} : f.isNaN = false → f.isInf = false → Constructed std (floatValue std f)
  | raw {b : Bytes} {T : Json.Tree} : Json.Text Json.Delimited b T → Constructed std (rawValue b)

structure BuiltData (std : Std) where
  fields : Data
  constructed : ∀ field ∈ fields, Constructed std field.2

/-- The text is accepted, and what it decodes to has the same names and equal values once
normalized. -/
def RoundTrips (std : Std) (d : Data) : Prop :=
  ∃ text back, marshalJSON std d = some text ∧ unmarshalJSON std text = .ok back ∧
    List.Forall₂ (fun field other => field.1 = other.1 ∧ field.2.equal other.2 = true) (normalize d)
      (normalize back)

def isCollection : ExtensionJson.Value → Bool
  | .list _ | .object _ => true
  | _ => false

/-- The values that come back: not a uint, not a float whose text is an `int64` numeral, and of raw
values only arrays and objects written as the extension encoder writes what it decodes from them. -/
def Survives (std : Std) (v : Value) : Prop :=
  match v.kind with
  | .null | .string | .bool | .int => True
  | .uint => False
  | .float => Strconv.parseInt v.text = none
  | .raw => ∃ w, ExtensionJson.decodeValueBytes std v.raw = .ok w ∧ isCollection w = true ∧
      rawValue (ExtensionJson.marshalJSON std w) = v

end Foundation.RecordJson
