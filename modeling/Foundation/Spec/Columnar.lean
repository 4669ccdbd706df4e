import Foundation.Lib.PackedMasks
import Foundation.Lib.Strconv
import Foundation.Spec.Partition

/-! Columns built from record entries, the selections over them, and the predicates that are
pushed into the construction of a batch (`columnar.go`, `columnar_numeric.go`,
`columnar_select.go`, `columnar_pushdown.go`). A string column keeps its strings where the code
keeps offsets into one buffer. -/

namespace Foundation.Hermes

open Go PackedBits

inductive CompareOp where
  | eq | ne | lt | le | gt | ge
  | other (code : ℤ)
deriving DecidableEq, Repr

def compareMatches {T : Type} [BEq T] [LT T] [LE T] [DecidableLT T] [DecidableLE T] (op : CompareOp)
    (value operand : T) : Bool :=
  match op with
  | .eq => value == operand
  | .ne => value != operand
  | .lt => value < operand
  | .le => value ≤ operand
  | .gt => operand < value
  | .ge => operand ≤ value
  | .other _ => false

def parseInt64 (text : String) : Option Int64 :=
  (Strconv.parseInt (Utf8.encode text.toList)).map Int64.ofInt

/-- The reading of floats from text. The fast path takes only texts it reads as `ParseFloat` does.
-/
structure FloatText (F : Type) where
  zero : F
  parseFloat : String → Option F
  fastDecimalFloat : String → Option F
  fast_exact : ∀ s v, fastDecimalFloat s = some v → parseFloat s = some v

def FloatText.parseColumnarFloat {F : Type} (n : FloatText F) (s : String) : Option F :=
  match n.fastDecimalFloat s with
  | some fast => some fast
  | none => n.parseFloat s

/-- Floats read as whole numbers, for runs on concrete input. -/
def wholeFloats : FloatText ℤ where
  zero := 0
  parseFloat s := s.toInt?
  fastDecimalFloat _ := none
  fast_exact _ _ h := by cases h

/-! ### Predicates -/

inductive Operand (F : Type) where
  | int64 (v : Int64)
  | float64 (v : F)
  | string (v : String)

structure ColumnPredicate (F : Type) where
  field : String
  op : CompareOp
  operand : Operand F

/-- The canonical text of a value of one of the kinds. -/
def RecordValue.scalarText (kinds : List Char) (val : RecordValue) : Option String :=
  match val.scalarIndex with
  | some (kind, text) => if kind ∈ kinds then some text else none
  | none => none

section

variable {F : Type} [BEq F] [LT F] [LE F] [DecidableLT F] [DecidableLE F] (n : FloatText F)

namespace ColumnPredicate

def matchesDataField (p : ColumnPredicate F) (data : RecordData) : Bool :=
  match data.get p.field with
  | none => false
  | some val =>
    match p.operand with
    | .int64 operand =>
      (RecordValue.scalarText ['i', 'u'] val).any fun idxVal =>
        (parseInt64 idxVal).any fun parsed => compareMatches p.op parsed operand
    | .float64 operand =>
      (RecordValue.scalarText ['f'] val).any fun idxVal =>
        (n.parseFloat idxVal).any fun parsed => compareMatches p.op parsed operand
    | .string operand =>
      match val.scalarIndex with
      | some (_, idxVal) => compareMatches p.op idxVal operand
      | none => if val.kind = .null then false else compareMatches p.op val.text operand

def «matches» (p : ColumnPredicate F) (entry : RecordEntry) : Bool :=
  if p.field = "record_id" then
    match p.operand with
    | .string operand => compareMatches p.op entry.record.recordID operand
    | _ => false
  else if p.field = "organization_id" then
    match p.operand with
    | .string operand => compareMatches p.op entry.record.organizationID operand
    | _ => false
  else if p.field = "version" then
    match p.operand with
    | .int64 operand => compareMatches p.op (Int64.ofNat entry.version) operand
    | _ => false
  else p.matchesDataField n entry.record.data

end ColumnPredicate

end

/-! ### Columns -/

inductive ColumnVector (F : Type) where
  | int64 (values : List Int64) (validity : List Word)
  | float64 (values : List F) (validity : List Word)
  | string (values : List String) (validity : List Word)
  | timestamp (values : List Time) (validity : List Word)
  | record (values : List DomainRecord) (validity : List Word)

inductive ColumnError where
  | integer (field text : String)
  | float (field text : String)
  | stringBytes (total : ℕ)
deriving DecidableEq, Repr

variable {F : Type}

/-- `lookupRecordField`: the name is trimmed already. -/
def lookupRecordField (data : RecordData) (trimmed : String) : Option RecordValue :=
  (data.find? (·.name == trimmed)).map (·.value)

def newStringVectorFromSlice (ss : List String) (valid : List Bool) :
    Except ColumnError (ColumnVector F) :=
  let total := (ss.map String.utf8ByteSize).sum
  if 2147483647 < total then .error (.stringBytes total)
  else .ok (.string ss (raised (fun i => valid.getD i false) ss.length))

/-- A cell of a numeric column: null unless the value has one of the kinds, and an error if its
text does not parse. -/
def numericCell {T : Type} (kinds : List Char) (parse : String → Option T)
    (failure : String → ColumnError) (want : String) (entry : RecordEntry) :
    Except ColumnError (Option T) :=
  match (lookupRecordField entry.record.data want).bind (RecordValue.scalarText kinds) with
  | none => .ok none
  | some text =>
    match parse text with
    | none => .error (failure text)
    | some parsed => .ok (some parsed)

/-- The validity of a column whose words are stored one by one. -/
def validityOf {T : Type} (cells : List (Option T)) : List Word :=
  packed (fun row => (cells.getD row none).isSome) cells.length

def buildIntDataFieldVector (field want : String) (entries : List RecordEntry) :
    Except ColumnError (ColumnVector F) := do
  let cells ← entries.mapM (numericCell ['i', 'u'] parseInt64 (.integer field) want)
  return .int64 (cells.map (·.getD 0)) (validityOf cells)

def buildFloatDataFieldVector (n : FloatText F) (field want : String) (entries : List RecordEntry) :
    Except ColumnError (ColumnVector F) := do
  let cells ← entries.mapM (numericCell ['f'] n.parseColumnarFloat (.float field) want)
  return .float64 (cells.map (·.getD n.zero)) (validityOf cells)

def boolCell (want : String) (entry : RecordEntry) : Option Int64 :=
  ((lookupRecordField entry.record.data want).bind (RecordValue.scalarText ['b'])).map fun idxVal =>
    if idxVal = "1" then 1 else 0

def stringCell (want : String) (entry : RecordEntry) : String × Bool :=
  match lookupRecordField entry.record.data want with
  | none => ("", false)
  | some val =>
    match val.scalarIndex with
    | some (_, idxVal) => (idxVal, true)
    | none => (val.text, val.kind ≠ .null)

/-- The kind of the first scalar value, which decides the type of the column. -/
def columnKind (want : String) (entries : List RecordEntry) : Option Char :=
  entries.findSome? fun entry =>
    ((lookupRecordField entry.record.data want).bind (·.scalarIndex)).map (·.1)

def buildDataFieldVector (n : FloatText F) (field : String) (entries : List RecordEntry) :
    Except ColumnError (ColumnVector F) :=
  let want := trimSpace field
  match columnKind want entries with
  | none => newStringVectorFromSlice (entries.map fun _ => "") (entries.map fun _ => false)
  | some kind =>
    if kind = 'i' ∨ kind = 'u' then buildIntDataFieldVector field want entries
    else if kind = 'f' then buildFloatDataFieldVector n field want entries
    else if kind = 'b' then
      let cells := entries.map (boolCell want)
      .ok (.int64 (cells.map (·.getD 0)) (raised (fun row => (cells.getD row none).isSome)
        cells.length))
    else newStringVectorFromSlice (entries.map fun e => (stringCell want e).1) (entries.map fun e =>
      (stringCell want e).2)

def allValid (rows : ℕ) : List Word := raised (fun _ => true) rows

def buildFieldVector (n : FloatText F) (field : String) (entries : List RecordEntry) :
    Except ColumnError (ColumnVector F) :=
  if field = "_record" then .ok (.record (entries.map (·.record)) (allValid entries.length))
  else if field = "record_id" then
    newStringVectorFromSlice (entries.map (·.record.recordID)) (entries.map fun _ => true)
  else if field = "organization_id" then
    newStringVectorFromSlice (entries.map (·.record.organizationID)) (entries.map fun _ => true)
  else if field = "created_at" then
    .ok (.timestamp (entries.map (·.record.createdAt)) (allValid entries.length))
  else if field = "updated_at" then
    .ok (.timestamp (entries.map (·.record.updatedAt)) (allValid entries.length))
  else if field = "version" then
    .ok (.int64 (entries.map fun e => Int64.ofNat e.version) (allValid entries.length))
  else buildDataFieldVector n field entries

/-! ### Selections -/

/-- `Time.UnixNano` of nanoseconds since Go's zero time. -/
def unixNano (t : Time) : Int64 := Int64.ofInt (t - 62135596800000000000)

namespace ColumnVector

def validityWords : ColumnVector F → List Word
  | .int64 _ validity | .float64 _ validity | .string _ validity | .timestamp _ validity
  | .record _ validity => validity

def int64Values : ColumnVector F → Option (List Int64)
  | .int64 values _ => some values
  | .timestamp values _ => some (values.map unixNano)
  | _ => none

def float64Values : ColumnVector F → Option (List F)
  | .float64 values _ => some values
  | _ => none

/-- The kernel of a typed selector: one comparison a row, word by word. -/
def selectKernel {T : Type} [BEq T] [LT T] [LE T] [DecidableLT T] [DecidableLE T] (values : List T)
    (op : CompareOp) (operand : T) : List Word :=
  packed (fun i => values[i]?.any fun value => compareMatches op value operand) values.length

/-- `SelectInt64` on a column; `none` is the error of a column that is not comparable. -/
def selectInt64 (vec : ColumnVector F) (op : CompareOp) (operand : Int64) : Option (List Word) :=
  vec.int64Values.map fun values => andWords (selectKernel values op operand) vec.validityWords

def selectFloat64 [BEq F] [LT F] [LE F] [DecidableLT F] [DecidableLE F] (vec : ColumnVector F)
    (op : CompareOp) (operand : F) : Option (List Word) :=
  vec.float64Values.map fun values => andWords (selectKernel values op operand) vec.validityWords

def selectString (vec : ColumnVector F) (op : CompareOp) (operand : String) : Option (List Word) :=
  match vec with
  | .string values validity => some (andWords
      (raised (fun i => values[i]?.any fun value => compareMatches op value operand) values.length)
        validity)
  | _ => none

end ColumnVector

def selectedRows (words : List Word) (rows : ℕ) : List Bool := (List.range rows).map (bitAt words)

end Foundation.Hermes
