import Foundation.Spec.Columnar
import Foundation.Spec.Query
import Foundation.Spec.Steps

/-! Columnar tables of a partition and the cache of sealed ones (`columnar.go`,
`columnar_table.go`). -/

namespace Foundation.Hermes

open Go PackedBits

structure Column (F : Type) where
  name : String
  data : ColumnVector F

structure RecordBatch (F : Type) where
  columns : List (Column F)
  rows : ℕ

structure ColumnarTable (F : Type) where
  batch : RecordBatch F
  pkIndex : GoMap String ℕ
  pkColumn : String

inductive TableError where
  | hermes (e : HermesError)
  | column (e : ColumnError)
  | columnNotFound (name : String)
  | invalidPrimaryKey
  | duplicatePrimaryKey (key : String)
deriving DecidableEq, Repr

variable {F : Type} (n : FloatText F)

def buildRecordBatch (fields : List String) (entries : List RecordEntry) :
    Except TableError (RecordBatch F) := do
  let columns ← fields.mapM fun field => do
    let vec ← (buildFieldVector n field entries).mapError TableError.column
    return ⟨field, vec⟩
  return ⟨columns, entries.length⟩

/-- The rows of the valid keys; a null key is not indexed. -/
def indexPrimaryKeys (values : List String) (validity : List Word) :
    List ℕ → GoMap String ℕ → Except TableError (GoMap String ℕ)
  | [], pkIndex => .ok pkIndex
  | i :: rest, pkIndex =>
    if bitAt validity i then
      let key := values.getD i ""
      if key ∈ pkIndex then .error (.duplicatePrimaryKey key)
      else indexPrimaryKeys values validity rest (pkIndex.insert key i)
    else indexPrimaryKeys values validity rest pkIndex

def newColumnarTable (batch : RecordBatch F) (pkColumn : String) :
    Except TableError (ColumnarTable F) :=
  match batch.columns.reverse.find? (·.name == pkColumn) with
  | none => .error (.columnNotFound pkColumn)
  | some col =>
    match col.data with
    | .string values validity => do
      let pkIndex ← indexPrimaryKeys values validity (List.range batch.rows) ∅
      return ⟨batch, pkIndex, pkColumn⟩
    | _ => .error .invalidPrimaryKey

def tableOf (fields : List String) (pkColumn : String) (entries : List RecordEntry) :
    Except TableError (ColumnarTable F) := do
  let batch ← buildRecordBatch n fields entries
  newColumnarTable batch pkColumn

namespace Partition

def getColumnarBatch (env : ReadEnv) (p : Partition) (query : Query) (fields : List String)
    (fence : Fence) :
    Except TableError (RecordBatch F) := do
  (p.checkFence fence).mapError TableError.hermes
  let query := normalizeQuery query
  if query.organizationID = "" then throw (.hermes .invalidEvent)
  let entries ← (p.collectRecordEntries env query).mapError TableError.hermes
  buildRecordBatch n fields (sortAndLimitEntries entries query)

def buildColumnarTable (env : ReadEnv) (p : Partition) (query : Query) (fields : List String)
    (pkColumn : String) (fence : Fence) : Except TableError (ColumnarTable F) := do
  let batch ← p.getColumnarBatch n env query fields fence
  newColumnarTable batch pkColumn

end Partition

/-! ### Sealed tables -/

def maxSealedColumnarTables : ℕ := 64

structure SealedColumnarKey where
  org : String
  fields : String
  pk : String
deriving DecidableEq, Repr

structure SealedColumnarEntry (F : Type) where
  table : ColumnarTable F
  epoch : ℕ

def cacheableColumnarQuery (query : Query) : Bool := query.limit = 0 && query.plan.count = 0

def newSealedColumnarKey (org : String) (fields : List String) (pkColumn : String) :
    SealedColumnarKey where
  org := org
  fields := if 0 < fields.length then "\x00".intercalate fields else ""
  pk := pkColumn

/-- A partition with its sealed tables; `columnarFields` and `columnarPK` are those of its spec. -/
structure SealedPartition (F : Type) where
  part : Partition
  columnarFields : List String
  columnarPK : String
  sealedColumnar : GoMap SealedColumnarKey (SealedColumnarEntry F) := ∅

namespace SealedPartition

def columnarShape (q : SealedPartition F) (fields : List String) (pkColumn : String) :
    List String × String :=
  let fields := if fields.length = 0 then q.columnarFields else fields
  let pkColumn := if pkColumn = "" then q.columnarPK else pkColumn
  (fields, if pkColumn = "" then "record_id" else pkColumn)

def loadSealedColumnar (q : SealedPartition F) (key : SealedColumnarKey) (epoch : ℕ) :
    Option (ColumnarTable F) :=
  match q.sealedColumnar.lookup key with
  | none => none
  | some entry => if entry.epoch ≠ epoch then none else some entry.table

/-- The tables after an entry is stored: a full cache is dropped, and without default fields the
entry also serves the default shape. -/
def withSealed (q : SealedPartition F) (key : SealedColumnarKey) (entry : SealedColumnarEntry F) :
    GoMap SealedColumnarKey (SealedColumnarEntry F) :=
  let next := if q.sealedColumnar.keys.card < maxSealedColumnarTables then q.sealedColumnar else ∅
  let next := next.insert key entry
  if q.columnarFields.length = 0 ∧ (key.fields ≠ "" ∨ key.pk ≠ "") then
    next.insert ⟨key.org, "", ""⟩ entry else next

def storeSealedColumnar (q : SealedPartition F) (key : SealedColumnarKey)
    (entry : SealedColumnarEntry F) :
    SealedPartition F :=
  if (q.sealedColumnar.lookup key).any fun existing => entry.epoch < existing.epoch then q
  else { q with sealedColumnar := q.withSealed key entry }

/-- `epoch` is the epoch that was loaded when the call began. -/
def sealColumnar (epoch : ℕ) (env : ReadEnv) (q : SealedPartition F) (query : Query)
    (fields : List String) (pkColumn : String) (fence : Fence) :
    Except TableError (ColumnarTable F) × SealedPartition F :=
  let key := newSealedColumnarKey (normalizeQuery query).organizationID fields pkColumn
  let shape := q.columnarShape fields pkColumn
  match q.part.buildColumnarTable n env query shape.1 shape.2 fence with
  | .error e => (.error e, q)
  | .ok table =>
    (.ok table, if cacheableColumnarQuery query then q.storeSealedColumnar key ⟨table, epoch⟩
      else q)

/-- The table `getColumnarTable` answers with from the cache, if it does. -/
def sealedAnswer (q : SealedPartition F) (query : Query) (fields : List String)
    (pkColumn : String) : Option (ColumnarTable F) :=
  if cacheableColumnarQuery query then
    q.loadSealedColumnar (newSealedColumnarKey query.organizationID fields pkColumn) q.part.epoch
  else none

def getColumnarTable (env : ReadEnv) (q : SealedPartition F) (query : Query) (fields : List String)
    (pkColumn : String) (fence : Fence) : Except TableError (ColumnarTable F) × SealedPartition F :=
  match q.part.checkFence fence with
  | .error e => (.error (.hermes e), q)
  | .ok () =>
    let query := normalizeQuery query
    if query.organizationID = "" then (.error (.hermes .invalidEvent), q)
    else match q.sealedAnswer query fields pkColumn with
      | some table => (.ok table, q)
      | none => q.sealColumnar n q.part.epoch env query fields pkColumn fence

end SealedPartition

/-- What changes a partition or its sealed tables. A seal stores its table under the epoch of an
earlier moment, `epoch`. -/
inductive SealedStep where
  | write (step : Partition.Step)
  | seal (epoch : ℕ) (env : ReadEnv) (query : Query) (fields : List String) (pkColumn : String)
    (fence : Fence)

def SealedPartition.exec (q : SealedPartition F) : SealedStep → SealedPartition F
  | .write step => { q with part := q.part.exec step }
  | .seal epoch env query fields pkColumn fence =>
    (q.sealColumnar n (min epoch q.part.epoch) env query fields pkColumn fence).2

/-- The states reached by steps that all meet `C`, in any order of writes and seals. -/
inductive SealedReach (C : SealedPartition F → SealedStep → Prop) (spec : NormalSpec)
  (columnarFields : List String)
    (columnarPK : String) : SealedPartition F → Prop
  | start : SealedReach C spec columnarFields columnarPK ⟨newPartition spec, columnarFields,
    columnarPK, ∅⟩
  | step {q : SealedPartition F} (s : SealedStep) : SealedReach C spec columnarFields columnarPK q →
    C q s →
      SealedReach C spec columnarFields columnarPK (q.exec n s)

end Foundation.Hermes
