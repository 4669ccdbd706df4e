import Foundation.Lib.Strconv
import Foundation.Lib.Binary64
import Foundation.Spec.Record

/-! The JSON codec of the `extension` package. Its strings are byte strings here, as Go's are. The
encoders share one definition, which takes the order of the range loops over objects; unknown
kinds, which no constructor builds, are left out. -/

namespace Foundation.ExtensionJson

open Json (nullText boolText beginArray endArray beginObject endObject nameSeparator valueSeparator
  quotationMark
  escape quoted keyLess put)
open Strconv (Printable appendQuote appendInt appendUint encodeToString)

/-- An extension value; an object lists its fields by ascending key, so that equal maps are equal
values. -/
inductive Value where
  | null
  | string (s : Bytes)
  | bool (b : Bool)
  | int (i : ℤ)
  | uint (u : ℕ)
  | float (f : Binary64)
  | bytes (b : Bytes)
  | list (items : List Value)
  | object (fields : List (Bytes × Value))

/-- The texts of `strconv` that depend on tables or rounding. -/
structure Std where
  printable : Printable
  formatFloat : Binary64 → Bytes
  parseFloat : Bytes → Except String Binary64

/-- The order of each loop over an object. It may differ from loop to loop; the buffer tells the
loops of one run apart, because it grows between them. -/
structure RangeOrders where
  arrange : Bytes → List (Bytes × (Bytes → Bytes)) → List (Bytes × (Bytes → Bytes))
  perm : ∀ dst fields, (arrange dst fields).Perm fields

/-- The loop over the items of a list, with what appends each item. -/
def appendItems : Bool → Bytes → List (Bytes → Bytes) → Bytes
  | _, dst, [] => dst
  | first, dst, item :: rest =>
    appendItems false (item (if first then dst else dst ++ [valueSeparator])) rest

def appendFields (std : Std) : Bool → Bytes → List (Bytes × (Bytes → Bytes)) → Bytes
  | _, dst, [] => dst
  | first, dst, field :: rest =>
    appendFields std false
      (field.2 (appendQuote std.printable (if first then dst else dst ++ [valueSeparator])
        field.1 ++ [nameSeparator]))
      rest

section
variable (std : Std) (orders : RangeOrders)

mutual

def appendValue : Value → Bytes → Bytes
  | .null, dst => dst ++ nullText
  | .string s, dst => appendQuote std.printable dst s
  | .bool b, dst => dst ++ boolText b
  | .int i, dst => appendInt dst i
  | .uint u, dst => appendUint dst u
  | .float f, dst => dst ++ std.formatFloat f
  | .bytes b, dst => appendQuote std.printable dst (encodeToString b)
  | .list items, dst =>
    if items.isEmpty then dst ++ [beginArray, endArray]
    else appendItems true (dst ++ [beginArray]) (itemAppenders items) ++ [endArray]
  | .object fields, dst =>
    if fields.isEmpty then dst ++ [beginObject, endObject]
    else appendFields std true (dst ++ [beginObject])
      (orders.arrange (dst ++ [beginObject]) (fieldAppenders fields)) ++ [endObject]

def itemAppenders : List Value → List (Bytes → Bytes)
  | [] => []
  | v :: vs => appendValue v :: itemAppenders vs

def fieldAppenders : List (Bytes × Value) → List (Bytes × (Bytes → Bytes))
  | [] => []
  | (k, v) :: fields => (k, appendValue v) :: fieldAppenders fields

end

end

/-- The loops of the canonical encoders, over sorted keys. -/
def sortedKeys : RangeOrders where
  arrange _ fields := fields.insertionSort fun a b => ¬ keyLess b.1 a.1
  perm _ fields := List.perm_insertionSort _ fields

def appendJSON (std : Std) (v : Value) (dst : Bytes) : Bytes := appendValue std sortedKeys v dst

def appendJSONFast (std : Std) (orders : RangeOrders) (v : Value) (dst : Bytes) : Bytes :=
  appendValue std orders v dst

def appendJSONWithArena (std : Std) (v : Value) (dst : Bytes) : Bytes :=
  appendValue std sortedKeys v dst

def marshalJSON (std : Std) (v : Value) : Bytes := appendJSON std v []

def marshalJSONFast (std : Std) (orders : RangeOrders) (v : Value) : Bytes :=
  appendJSONFast std orders v []

/-- `room`: there is an arena and it can hold the buffer. -/
def marshalJSONWithArena (std : Std) (room : Bool) (v : Value) : Bytes :=
  if room then appendJSONWithArena std v [] else marshalJSON std v

def marshalJSONFastWithArena (std : Std) (orders : RangeOrders) (room : Bool) (v : Value) : Bytes :=
  if room then appendJSONFast std orders v [] else marshalJSONFast std orders v

/-! ### The parser. Its position is the suffix of the data still to be read. -/

def consumeByte (ch : UInt8) (s : Bytes) : Option Bytes := Json.expect ch s

def consumeLiteral (literal s : Bytes) : Option Bytes := Json.expectText literal s

def skipSpace (s : Bytes) : Bytes := Json.skipSpace s

/-- The scanning loop of `parseString`: the bytes up to the closing quote. -/
def stringLoop : Bytes → Except String (Bytes × Bytes)
  | [] => .error "unexpected EOF"
  | ch :: rest =>
    if ch = escape then
      match rest with
      | [] => .error "unexpected EOF"
      | next :: rest => (stringLoop rest).map fun r => (ch :: next :: r.1, r.2)
    else if ch = quotationMark then .ok ([], rest)
    else if ch < 0x20 then .error "extension JSON string contains control character"
    else (stringLoop rest).map fun r => (ch :: r.1, r.2)

def parseString (s : Bytes) : Except String (Bytes × Bytes) :=
  match consumeByte quotationMark (skipSpace s) with
  | none => .error "extension JSON string must start with quote"
  | some rest => do
    let (body, rest) ← stringLoop rest
    if escape ∈ body then
      match Strconv.unquote (quoted body) with
      | some text => .ok (text, rest)
      | none => .error "invalid syntax"
    else .ok (body, rest)

def parseNumber (s : Bytes) : Except String (Bytes × Bytes) :=
  let (sign, rest) := Json.takeSign s
  if rest = [] then .error "unexpected EOF"
  else match Json.takeInt rest with
    | none => .error "extension JSON number has invalid integer part"
    | some (int, rest) =>
      match Json.takeFrac rest with
      | none => .error "extension JSON number has invalid fraction"
      | some (frac, rest) =>
        match Json.takeExp rest with
        | none => .error "extension JSON number has invalid exponent"
        | some (exp, rest) => .ok (sign ++ (int ++ (frac ++ exp)), rest)

def valueFromJSONNumber (std : Std) (number : Bytes) : Except String Value :=
  match Strconv.parseInt number with
  | some i => .ok (.int i)
  | none => (std.parseFloat number).map .float

def invalidValue (size : ℕ) (s : Bytes) : String :=
  "invalid JSON value at byte " ++ Nat.repr (size - s.length)

def parseObjectWith
    (entries : List (Bytes × Value) → Bytes → Except String (List (Bytes × Value) × Bytes))
    (s : Bytes) : Except String (List (Bytes × Value) × Bytes) :=
  match consumeByte beginObject (skipSpace s) with
  | none => .error "extension object must be a json object"
  | some rest =>
    match consumeByte endObject (skipSpace rest) with
    | some rest => .ok ([], rest)
    | none => entries [] (skipSpace rest)

def parseListWith (entries : List Value → Bytes → Except String (List Value × Bytes)) (s : Bytes) :
    Except String (List Value × Bytes) :=
  match consumeByte beginArray (skipSpace s) with
  | none => .error "extension list must be a json array"
  | some rest =>
    match consumeByte endArray (skipSpace rest) with
    | some rest => .ok ([], rest)
    | none => entries [] (skipSpace rest)

section
variable (std : Std) (size : ℕ)

mutual

def parseValue : ℕ → Bytes → Except String (Value × Bytes)
  | 0, _ => .error "EOF"
  | fuel + 1, s =>
    match skipSpace s with
    | [] => .error "EOF"
    | c :: rest =>
      if c = 0x6E then
        match consumeLiteral nullText (c :: rest) with
        | some rest => .ok (.null, rest)
        | none => .error (invalidValue size (c :: rest))
      else if c = 0x74 then
        match consumeLiteral (boolText true) (c :: rest) with
        | some rest => .ok (.bool true, rest)
        | none => .error (invalidValue size (c :: rest))
      else if c = 0x66 then
        match consumeLiteral (boolText false) (c :: rest) with
        | some rest => .ok (.bool false, rest)
        | none => .error (invalidValue size (c :: rest))
      else if c = quotationMark then (parseString (c :: rest)).map fun r => (.string r.1, r.2)
      else if c = beginObject then
        (parseObjectWith (parseFields fuel) (c :: rest)).map fun r => (.object r.1, r.2)
      else if c = beginArray then
        (parseListWith (parseItems fuel) (c :: rest)).map fun r => (.list r.1, r.2)
      else do
        let (number, rest) ← parseNumber (c :: rest)
        let v ← valueFromJSONNumber std number
        .ok (v, rest)

def parseItems : ℕ → List Value → Bytes → Except String (List Value × Bytes)
  | 0, _, _ => .error "EOF"
  | fuel + 1, out, s => do
    let (value, rest) ← parseValue fuel s
    match consumeByte endArray (skipSpace rest) with
    | some rest => .ok (out ++ [value], rest)
    | none =>
      match consumeByte valueSeparator (skipSpace rest) with
      | none => .error "extension list entries must be separated by ','"
      | some rest => parseItems fuel (out ++ [value]) (skipSpace rest)

def parseFields : ℕ → List (Bytes × Value) → Bytes → Except String (List (Bytes × Value) × Bytes)
  | 0, _, _ => .error "EOF"
  | fuel + 1, out, s => do
    let (key, rest) ← parseString s
    match consumeByte nameSeparator (skipSpace rest) with
    | none => .error "extension object key must be followed by ':'"
    | some rest =>
      let (value, rest) ← parseValue fuel rest
      match consumeByte endObject (skipSpace rest) with
      | some rest => .ok (put key value out, rest)
      | none =>
        match consumeByte valueSeparator (skipSpace rest) with
        | none => .error "extension object entries must be separated by ','"
        | some rest => parseFields fuel (put key value out) (skipSpace rest)

end

end

def decodeValueBytes (std : Std) (data : Bytes) : Except String Value :=
  let trimmed := trimBytes data
  if trimmed = [] then .error "EOF"
  else do
    -- a value of `n` bytes is read in at most `2 * n` nested calls
    let (value, rest) ← parseValue std trimmed.length (2 * trimmed.length) trimmed
    if skipSpace rest = [] then .ok value else .error "extension JSON contains trailing data"

/-- The printable characters of Latin-1 alone, for runs on concrete input. -/
def latinPrintable : Printable where
  isPrint c := decide (0x20 ≤ c.toNat ∧ c.toNat < 0x7F) || decide (0xA1 ≤ c.toNat ∧ c.toNat ≠ 0xAD)
  latin _ _ := rfl

def latinStd : Std where
  printable := latinPrintable
  formatFloat _ := []
  parseFloat _ := .error "value out of range"

end Foundation.ExtensionJson
