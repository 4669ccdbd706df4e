import Foundation.Sanity.Apply
import Foundation.Spec.Columnar

/-! Selecting rows of a column against filtering entries before the column is built. A column
takes its type from the first scalar value among its entries, while a predicate looks at each
entry by itself. -/

namespace Foundation.Hermes

open Go PackedBits

/-! ### Rows of a mask -/

variable {T : Type}

section Rows

theorem bitAt_packed_of_lt {f : ℕ → Bool} {rows i : ℕ} (hi : i < rows) :
    bitAt (packed f rows) i = f i := by
  rw [bitAt_packed, decide_eq_true hi, Bool.true_and]

theorem bitAt_raised_of_lt {f : ℕ → Bool} {rows i : ℕ} (hi : i < rows) :
    bitAt (raised f rows) i = f i := by
  rw [bitAt_raised, decide_eq_true hi, Bool.true_and]

/-- A selection that masks its comparisons with the validity of the column picks the valid rows
whose value compares. -/
theorem selectedRows_valid (entries : List RecordEntry) (value : RecordEntry → T)
    (valid : RecordEntry → Bool) (cmp : T → Bool) {ws validity : List Word}
    (hws : ∀ i < entries.length, bitAt ws i = (entries.map value)[i]?.any cmp)
    (hvalid : ∀ i < entries.length, bitAt validity i = (entries.map valid).getD i false) :
    selectedRows (andWords ws validity) entries.length = entries.map fun e =>
      cmp (value e) && valid e := by
  unfold selectedRows
  refine List.ext_getElem (by simp) fun i h1 h2 => ?_
  have hi : i < entries.length := by simpa using h2
  rw [List.getElem_map, List.getElem_map, List.getElem_range, bitAt_andWords, hws i hi, hvalid i hi]
  simp [hi]

variable {i : ℕ}

theorem bitAt_selectKernel [BEq T] [LT T] [LE T] [DecidableLT T] [DecidableLE T] (values : List T)
    (op : CompareOp) (operand : T) (hi : i < values.length) :
    bitAt (ColumnVector.selectKernel values op operand) i = values[i]?.any fun v =>
      compareMatches op v operand :=
  bitAt_packed_of_lt hi

theorem bitAt_allValid (entries : List RecordEntry) (hi : i < entries.length) :
    bitAt (allValid entries.length) i = (entries.map fun _ => true).getD i false := by
  unfold allValid
  rw [bitAt_raised_of_lt hi, List.getD_eq_getElem _ _ (by simpa using hi), List.getElem_map]

theorem bitAt_validityOf (entries : List RecordEntry) (cell : RecordEntry → Option T)
    (hi : i < entries.length) :
    bitAt (validityOf (entries.map cell)) i = (entries.map fun e => (cell e).isSome).getD
      i false := by
  unfold validityOf
  rw [bitAt_packed_of_lt (by simpa using hi)]
  simp [hi]

theorem any_eq_getD (cell : Option T) (null : T) (cmp : T → Bool) :
    (cmp (cell.getD null) && cell.isSome) = cell.any cmp := by
  cases cell <;> simp

theorem selectedRows_kernel [BEq T] [LT T] [LE T] [DecidableLT T] [DecidableLE T]
    (entries : List RecordEntry) (cell : RecordEntry → Option T) (null : T) (op : CompareOp)
    (operand : T) {validity : List Word}
    (hvalid : ∀ i < entries.length,
      bitAt validity i = (entries.map fun e => (cell e).isSome).getD i false) :
    selectedRows
      (andWords (ColumnVector.selectKernel ((entries.map cell).map (·.getD null)) op operand)
      validity)
        entries.length = entries.map fun e => (cell e).any fun v =>
          compareMatches op v operand := by
  rw [List.map_map]
  refine (selectedRows_valid entries (fun e => (cell e).getD null) (fun e => (cell e).isSome)
    (fun v => compareMatches op v operand)
    (fun i hi => bitAt_selectKernel _ op operand (by simpa using hi)) hvalid).trans ?_
  exact List.map_congr_left fun e _ => any_eq_getD (cell e) null fun v =>
    compareMatches op v operand

theorem selectedRows_full [BEq T] [LT T] [LE T] [DecidableLT T] [DecidableLE T]
    (entries : List RecordEntry) (value : RecordEntry → T) (op : CompareOp) (operand : T) :
    selectedRows (andWords (ColumnVector.selectKernel (entries.map value) op operand)
      (allValid entries.length))
        entries.length = entries.map fun e => compareMatches op (value e) operand := by
  rw [selectedRows_valid entries value (fun _ => true) (fun v => compareMatches op v operand)
    (fun i hi => bitAt_selectKernel _ op operand (by simpa using hi))
      (fun i hi => bitAt_allValid entries hi)]
  exact List.map_congr_left fun e _ => Bool.and_true _

end Rows

/-! ### Cells and predicates -/

section Cells

variable {F : Type} [BEq F] [LT F] [LE F] [DecidableLT F] [DecidableLE F] (n : FloatText F)

/-- The number an entry's data holds under a name, as an integer predicate reads it. -/
def dataInt (field : String) (entry : RecordEntry) : Option Int64 :=
  ((entry.record.data.get field).bind (RecordValue.scalarText ['i', 'u'])).bind parseInt64

def dataFloat (field : String) (entry : RecordEntry) : Option F :=
  ((entry.record.data.get field).bind (RecordValue.scalarText ['f'])).bind n.parseFloat

theorem matchesDataField_int64 (field : String) (op : CompareOp) (operand : Int64)
    (entry : RecordEntry) :
    (ColumnPredicate.mk field op (.int64 operand : Operand F)).matchesDataField n
      entry.record.data =
      (dataInt field entry).any fun parsed => compareMatches op parsed operand := by
  unfold ColumnPredicate.matchesDataField dataInt
  dsimp only
  cases entry.record.data.get field with
  | none => rfl
  | some val =>
    dsimp only [Option.bind_some]
    cases RecordValue.scalarText ['i', 'u'] val <;> rfl

theorem matchesDataField_float64 (field : String) (op : CompareOp) (operand : F)
    (entry : RecordEntry) :
    (ColumnPredicate.mk field op (.float64 operand)).matchesDataField n entry.record.data =
      (dataFloat n field entry).any fun parsed => compareMatches op parsed operand := by
  unfold ColumnPredicate.matchesDataField dataFloat
  dsimp only
  cases entry.record.data.get field with
  | none => rfl
  | some val =>
    dsimp only [Option.bind_some]
    cases RecordValue.scalarText ['f'] val <;> rfl

theorem matchesDataField_string (field : String) (op : CompareOp) (operand : String)
    (entry : RecordEntry) :
    (ColumnPredicate.mk field op (.string operand : Operand F)).matchesDataField n
      entry.record.data =
      (compareMatches op (stringCell (trimSpace field) entry).1 operand &&
        (stringCell (trimSpace field) entry).2) := by
  unfold ColumnPredicate.matchesDataField stringCell
  dsimp only
  have hget : lookupRecordField entry.record.data (trimSpace field) = entry.record.data.get field :=
    rfl
  rw [hget]
  cases entry.record.data.get field with
  | none => exact (Bool.and_false _).symm
  | some val =>
    dsimp only
    cases val.scalarIndex with
    | some pair => exact (Bool.and_true _).symm
    | none =>
      by_cases hnull : val.kind = .null
      · simp [hnull]
      · simp [hnull]

omit [BEq F] [LT F] [LE F] [DecidableLT F] [DecidableLE F] in
theorem parseColumnarFloat_eq : n.parseColumnarFloat = n.parseFloat := by
  funext s
  unfold FloatText.parseColumnarFloat
  cases h : n.fastDecimalFloat s with
  | none => rfl
  | some v => exact (n.fast_exact s v h).symm

theorem numericCell_ok {kinds : List Char} {parse : String → Option T}
    {failure : String → ColumnError} {field : String} {entry : RecordEntry} {cell : Option T}
    (h : numericCell kinds parse failure (trimSpace field) entry = .ok cell) :
    cell = ((entry.record.data.get field).bind (RecordValue.scalarText kinds)).bind parse := by
  unfold numericCell at h
  have hget : lookupRecordField entry.record.data (trimSpace field) = entry.record.data.get field :=
    rfl
  rw [hget] at h
  cases ht : (entry.record.data.get field).bind (RecordValue.scalarText kinds) with
  | none =>
    rw [ht] at h
    exact (Except.ok.inj h).symm
  | some text =>
    rw [ht] at h
    dsimp only at h
    rw [Option.bind_some]
    cases hp : parse text with
    | none => rw [hp] at h; cases h
    | some v =>
      rw [hp] at h
      exact (Except.ok.inj h).symm

theorem numericCells_ok {kinds : List Char} {parse : String → Option T}
    {failure : String → ColumnError} {field : String} {entries : List RecordEntry}
    {cells : List (Option T)}
    (h : entries.mapM (numericCell kinds parse failure (trimSpace field)) = .ok cells) :
    cells = entries.map fun e =>
      ((e.record.data.get field).bind (RecordValue.scalarText kinds)).bind parse := by
  have hcells := forall₂_of_mapM h
  clear h
  induction hcells with
  | nil => rfl
  | cons ha _ ih => rw [List.map_cons, numericCell_ok ha, ← ih]

/-- What the typed selectors select from a column is what the predicates on its field match. -/
structure SelectsMatches (field : String) (entries : List RecordEntry) (vec : ColumnVector F) :
  Prop where
  int64 : ∀ op operand words, vec.selectInt64 op operand = some words →
    selectedRows words entries.length =
      entries.map ((ColumnPredicate.mk field op (.int64 operand)).matches n)
  float64 : ∀ op operand words, vec.selectFloat64 op operand = some words →
    selectedRows words entries.length =
      entries.map ((ColumnPredicate.mk field op (.float64 operand)).matches n)
  string : ∀ op operand words, vec.selectString op operand = some words →
    selectedRows words entries.length =
      entries.map ((ColumnPredicate.mk field op (.string operand)).matches n)

variable {n} {field : String} {entries : List RecordEntry}

variable {vec : ColumnVector F}

theorem selectsMatches_int64 {values : List Int64} (hv : vec.int64Values = some values) :
    SelectsMatches n field entries vec ↔
      ∀ op operand,
        selectedRows (andWords (ColumnVector.selectKernel values op operand) vec.validityWords)
          entries.length =
          entries.map ((ColumnPredicate.mk field op (.int64 operand)).matches n) := by
  have hsel : ∀ op operand, vec.selectInt64 op operand =
      some (andWords (ColumnVector.selectKernel values op operand) vec.validityWords) := by
    intro op operand
    rw [ColumnVector.selectInt64, hv, Option.map_some]
  constructor
  · intro h op operand
    exact h.int64 op operand _ (hsel op operand)
  · intro h
    refine ⟨fun op operand words hw => ?_, fun _ _ _ hw => ?_, fun _ _ _ hw => ?_⟩
    · rw [hsel op operand] at hw
      obtain rfl := Option.some.inj hw
      exact h op operand
    · cases vec with
      | int64 | timestamp => cases hw
      | float64 | string | record => cases hv
    · cases vec with
      | int64 | timestamp => cases hw
      | float64 | string | record => cases hv

theorem selectsMatches_float64 {values : List F} {validity : List Word} :
    SelectsMatches n field entries (.float64 values validity) ↔
      ∀ op operand, selectedRows (andWords (ColumnVector.selectKernel values op operand) validity)
        entries.length =
        entries.map ((ColumnPredicate.mk field op (.float64 operand)).matches n) := by
  constructor
  · intro h op operand
    exact h.float64 op operand _ rfl
  · intro h
    refine ⟨fun _ _ _ hw => ?_, fun op operand words hw => ?_, fun _ _ _ hw => ?_⟩
    · cases hw
    · obtain rfl := Option.some.inj hw
      exact h op operand
    · cases hw

theorem selectedRows_string (text : RecordEntry → String) (valid : RecordEntry → Bool)
    (op : CompareOp) (operand : String) :
    selectedRows
      (andWords (raised (fun i => (entries.map text)[i]?.any fun v => compareMatches op v operand)
        (entries.map text).length) (raised (fun i => (entries.map valid).getD i false)
          (entries.map text).length))
        entries.length = entries.map fun e => compareMatches op (text e) operand && valid e :=
  selectedRows_valid entries text valid (fun v => compareMatches op v operand)
    (fun _ hi => bitAt_raised_of_lt (by simpa using hi))
      (fun _ hi => bitAt_raised_of_lt (by simpa using hi))

/-- A string column, if its bytes fit into one buffer. -/
theorem selectsMatches_string {text : RecordEntry → String} {valid : RecordEntry → Bool}
    (h : newStringVectorFromSlice (entries.map text) (entries.map valid) = .ok vec) :
    SelectsMatches n field entries vec ↔ ∀ op operand,
      (entries.map fun e => compareMatches op (text e) operand && valid e) =
        entries.map ((ColumnPredicate.mk field op (.string operand)).matches n) := by
  unfold newStringVectorFromSlice at h
  dsimp only at h
  split_ifs at h
  obtain rfl := Except.ok.inj h
  constructor
  · intro h op operand
    rw [← h.string op operand _ rfl, selectedRows_string]
  · intro h
    refine ⟨fun _ _ _ hw => ?_, fun _ _ _ hw => ?_, fun op operand words hw => ?_⟩
    · cases hw
    · cases hw
    · obtain rfl := Option.some.inj hw
      rw [selectedRows_string, h op operand]

/-! ### Columns of data fields -/

/-- A name that no predicate takes for an attribute of the record. -/
def DataName (field : String) : Prop :=
  field ≠ "record_id" ∧ field ≠ "organization_id" ∧ field ≠ "version"

theorem matches_data (hname : DataName field) (op : CompareOp) (operand : Operand F)
    (entry : RecordEntry) :
    (ColumnPredicate.mk field op operand).matches n entry =
      (ColumnPredicate.mk field op operand).matchesDataField n entry.record.data := by
  unfold ColumnPredicate.matches
  rw [if_neg hname.1, if_neg hname.2.1, if_neg hname.2.2]

theorem buildInt_selectsMatches (hname : DataName field)
    (h : buildIntDataFieldVector field (trimSpace field) entries = .ok vec) :
    SelectsMatches n field entries vec := by
  obtain ⟨cells, hcells, h⟩ := except_bind_eq_ok h
  obtain rfl := numericCells_ok hcells
  obtain rfl := Except.ok.inj h
  refine (selectsMatches_int64 rfl).mpr fun op operand => ?_
  refine (selectedRows_kernel entries (dataInt field) 0 op operand
    (fun i hi => bitAt_validityOf entries (dataInt field) hi)).trans ?_
  refine List.map_congr_left fun e _ => ?_
  rw [matches_data hname, matchesDataField_int64]

theorem buildFloat_selectsMatches (hname : DataName field)
    (h : buildFloatDataFieldVector n field (trimSpace field) entries = .ok vec) :
    SelectsMatches n field entries vec := by
  obtain ⟨cells, hcells, h⟩ := except_bind_eq_ok h
  rw [parseColumnarFloat_eq] at hcells
  obtain rfl := numericCells_ok hcells
  obtain rfl := Except.ok.inj h
  refine selectsMatches_float64.mpr fun op operand => ?_
  refine (selectedRows_kernel entries (dataFloat n field) n.zero op operand
    (fun i hi => bitAt_validityOf entries (dataFloat n field) hi)).trans ?_
  refine List.map_congr_left fun e _ => ?_
  rw [matches_data hname, matchesDataField_float64]

theorem buildString_selectsMatches (hname : DataName field)
    (h : newStringVectorFromSlice (entries.map fun e => (stringCell (trimSpace field) e).1)
      (entries.map fun e => (stringCell (trimSpace field) e).2) = .ok vec) :
    SelectsMatches n field entries vec := by
  refine (selectsMatches_string h).mpr fun op operand => List.map_congr_left fun e _ => ?_
  rw [matches_data hname, matchesDataField_string]

theorem columnKind_some {want : String} {kind : Char} (h : columnKind want entries = some kind) :
    ∃ e ∈ entries, ∃ val, lookupRecordField e.record.data want = some val ∧
      ∃ text, val.scalarIndex = some (kind, text) := by
  obtain ⟨e, he, h⟩ := List.exists_of_findSome?_eq_some h
  obtain ⟨pair, hpair, rfl⟩ := Option.map_eq_some_iff.mp h
  obtain ⟨val, hval, hpair⟩ := Option.bind_eq_some_iff.mp hpair
  exact ⟨e, he, val, hval, pair.2, hpair⟩

theorem columnKind_none {want : String} (h : columnKind want entries = none) {e : RecordEntry}
    (he : e ∈ entries) {val : RecordValue}
    (hval : lookupRecordField e.record.data want = some val) : val.scalarIndex = none := by
  have hnone := List.findSome?_eq_none_iff.mp h e he
  rw [hval, Option.bind_some, Option.map_eq_none_iff] at hnone
  exact hnone

/-- A column of booleans answers integer selections that no integer predicate matches. -/
theorem bool_column_differs (hname : DataName field)
    (hkind : columnKind (trimSpace field) entries = some 'b') :
    ∃ vec, buildDataFieldVector n field entries = .ok vec ∧
      ¬ SelectsMatches n field entries vec := by
  obtain ⟨e, he, val, hval, text, hindex⟩ := columnKind_some hkind
  unfold buildDataFieldVector
  dsimp only
  rw [hkind]
  refine ⟨_, rfl, fun hsel => ?_⟩
  have hrows := (selectsMatches_int64 rfl).mp hsel .ge Int64.minValue
  rw [ColumnVector.validityWords, selectedRows_kernel entries (boolCell (trimSpace field)) 0 .ge
    Int64.minValue
    (fun i hi => by rw [bitAt_raised_of_lt (by simpa using hi)]; simp [hi])] at hrows
  have hcell := List.map_inj_left.mp hrows e he
  rw [matches_data hname, matchesDataField_int64] at hcell
  have hbool : boolCell (trimSpace field) e = some (if text = "1" then 1 else 0) := by
    simp [boolCell, hval, RecordValue.scalarText, hindex]
  have hint : dataInt field e = none := by
    have hget : e.record.data.get field = some val := hval
    simp [dataInt, hget, RecordValue.scalarText, hindex]
  rw [hbool, hint, Option.any_some, Option.any_none] at hcell
  have hle : Int64.minValue ≤ (if text = "1" then (1 : Int64) else 0) := Int64.minValue_le _
  simp [compareMatches, hle] at hcell

/-- A column without any scalar is a column of nulls, which agrees with predicates on text only
when the entries have nothing but nulls there. -/
theorem null_column_iff (hname : DataName field)
    (hkind : columnKind (trimSpace field) entries = none) :
    (∀ vec, buildDataFieldVector n field entries = .ok vec → SelectsMatches n field entries vec) ↔
      ∀ e ∈ entries, ∀ val, e.record.data.get field = some val → val.kind = .null := by
  have hbuild : buildDataFieldVector n field entries =
      newStringVectorFromSlice (entries.map fun _ => "") (entries.map fun _ => false) := by
    unfold buildDataFieldVector
    dsimp only
    rw [hkind]
  have hcell : ∀ e ∈ entries, ∀ val, e.record.data.get field = some val →
      stringCell (trimSpace field) e = (val.text, decide (val.kind ≠ .null)) := by
    intro e he val hval
    unfold stringCell
    have hget : lookupRecordField e.record.data (trimSpace field) = some val := hval
    rw [hget]
    dsimp only
    rw [columnKind_none hkind he hget]
  constructor
  · intro h e he val hval
    by_contra hnull
    have hzero : ((entries.map fun _ => "").map String.utf8ByteSize).sum = 0 := by simp
    have hok : ∃ vec : ColumnVector F, newStringVectorFromSlice (entries.map fun _ => "")
        (entries.map fun _ => false) = .ok vec := by
      unfold newStringVectorFromSlice
      dsimp only
      rw [hzero]
      exact ⟨_, rfl⟩
    obtain ⟨vec, hvec⟩ := hok
    have hrows := (selectsMatches_string hvec).mp (h vec (hbuild.trans hvec)) .ge ""
    have hrow := List.map_inj_left.mp hrows e he
    rw [matches_data hname, matchesDataField_string, hcell e he val hval, Bool.and_false] at hrow
    have hempty : "" ≤ val.text :=
      not_lt.mp fun h => List.not_lt_nil _ (String.lt_iff_toList_lt.mp h)
    simp [compareMatches, hnull, hempty] at hrow
  · intro h vec hvec
    rw [hbuild] at hvec
    refine (selectsMatches_string hvec).mpr fun op operand => List.map_congr_left fun e he => ?_
    rw [matches_data hname, matchesDataField_string, Bool.and_false]
    cases hval : e.record.data.get field with
    | none =>
      have hget : lookupRecordField e.record.data (trimSpace field) = none := hval
      unfold stringCell
      rw [hget]
      exact (Bool.and_false _).symm
    | some val =>
      rw [hcell e he val hval]
      simp [h e he val hval]

/-- The columns of a data field and the predicates on it agree unless the column is one of
booleans, or one of nulls over entries that hold raw values. -/
theorem data_column_iff (hname : DataName field) :
    (∀ vec, buildDataFieldVector n field entries = .ok vec → SelectsMatches n field entries vec) ↔
      columnKind (trimSpace field) entries ≠ some 'b' ∧
        (columnKind (trimSpace field) entries = none →
          ∀ e ∈ entries, ∀ val, e.record.data.get field = some val → val.kind = .null) := by
  cases hkind : columnKind (trimSpace field) entries with
  | none => simpa using null_column_iff hname hkind
  | some kind =>
    by_cases hb : kind = 'b'
    · subst hb
      obtain ⟨vec, hvec, hnot⟩ := bool_column_differs (n := n) hname hkind
      refine ⟨fun h => absurd (h vec hvec) hnot, fun h => absurd rfl h.1⟩
    · refine ⟨fun _ => ⟨fun h => hb (Option.some.inj h), fun h => by cases h⟩, fun _ vec hvec => ?_⟩
      unfold buildDataFieldVector at hvec
      dsimp only at hvec
      rw [hkind] at hvec
      dsimp only at hvec
      split_ifs at hvec
      · exact buildInt_selectsMatches hname hvec
      · exact buildFloat_selectsMatches hname hvec
      · exact buildString_selectsMatches hname hvec

/-! ### Columns of attributes -/

/-- A column without nulls over an attribute, with an integer view. -/
theorem timestamp_column_iff (hname : DataName field) (time : RecordEntry → Time) :
    SelectsMatches n field entries (.timestamp (entries.map time) (allValid entries.length)) ↔
      ∀ e ∈ entries, dataInt field e = some (unixNano (time e)) := by
  refine (selectsMatches_int64 rfl).trans ?_
  have hrows : ∀ op operand,
      selectedRows (andWords (ColumnVector.selectKernel ((entries.map time).map unixNano) op
      operand) (allValid entries.length)) entries.length =
        entries.map fun e => compareMatches op (unixNano (time e)) operand := by
    intro op operand
    rw [List.map_map]
    exact selectedRows_full entries (unixNano ∘ time) op operand
  constructor
  · intro h e he
    have hrow := h .eq (unixNano (time e))
    rw [ColumnVector.validityWords, hrows] at hrow
    have hcell := List.map_inj_left.mp hrow e he
    rw [matches_data hname, matchesDataField_int64] at hcell
    cases hd : dataInt field e with
    | none => simp [hd, compareMatches] at hcell
    | some v => simpa [hd, compareMatches] using hcell
  · intro h op operand
    rw [ColumnVector.validityWords, hrows]
    refine List.map_congr_left fun e he => ?_
    rw [matches_data hname, matchesDataField_int64, h e he, Option.any_some]

theorem version_column (entries : List RecordEntry) :
    SelectsMatches n "version" entries
      (.int64 (entries.map fun e => Int64.ofNat e.version) (allValid entries.length)) := by
  refine (selectsMatches_int64 rfl).mpr fun op operand => ?_
  exact selectedRows_full entries (fun e => Int64.ofNat e.version) op operand

theorem record_column (values : List DomainRecord) (validity : List Word) :
    SelectsMatches n field entries (.record values validity) := by
  refine ⟨?_, ?_, ?_⟩ <;> (intro _ _ _ h; cases h)

/-- The entries a field can be selected over as it can be filtered: a time is held as data as
well, and no column of booleans or of nulls hides a number or a text. -/
structure Comparable (field : String) (entries : List RecordEntry) : Prop where
  created : field = "created_at" → ∀ e ∈ entries,
    dataInt field e = some (unixNano e.record.createdAt)
  updated : field = "updated_at" → ∀ e ∈ entries,
    dataInt field e = some (unixNano e.record.updatedAt)
  scalar : field ∉ ["_record", "record_id", "organization_id", "created_at",
    "updated_at", "version"] →
    columnKind (trimSpace field) entries ≠ some 'b' ∧
      (columnKind (trimSpace field) entries = none →
        ∀ e ∈ entries, ∀ val, e.record.data.get field = some val → val.kind = .null)

theorem Comparable.attribute (h : field ∈ ["_record", "record_id", "organization_id", "version"]) :
    Comparable field entries := by
  refine ⟨?_, ?_, fun hn => absurd ?_ hn⟩
  · rintro rfl
    exact absurd h (by decide)
  · rintro rfl
    exact absurd h (by decide)
  · simp only [List.mem_cons, List.not_mem_nil, or_false] at h ⊢
    tauto

theorem comparable_created : Comparable "created_at" entries ↔
    ∀ e ∈ entries, dataInt "created_at" e = some (unixNano e.record.createdAt) :=
  ⟨fun h => h.created rfl, fun h => ⟨fun _ => h, fun hu => absurd hu (by decide),
    fun hn => absurd (by decide) hn⟩⟩

theorem comparable_updated : Comparable "updated_at" entries ↔
    ∀ e ∈ entries, dataInt "updated_at" e = some (unixNano e.record.updatedAt) :=
  ⟨fun h => h.updated rfl, fun h => ⟨fun hc => absurd hc (by decide), fun _ => h,
    fun hn => absurd (by decide) hn⟩⟩

theorem comparable_data
    (h : field ∉ ["_record", "record_id", "organization_id", "created_at", "updated_at", "version"])
    :
    Comparable field entries ↔ columnKind (trimSpace field) entries ≠ some 'b' ∧
      (columnKind (trimSpace field) entries = none →
        ∀ e ∈ entries, ∀ val, e.record.data.get field = some val → val.kind = .null) := by
  refine ⟨fun hc => hc.scalar h, fun hs => ⟨?_, ?_, fun _ => hs⟩⟩
  · rintro rfl
    exact absurd (by decide) h
  · rintro rfl
    exact absurd (by decide) h

variable (n) (field) (entries)

/-- What a typed selector selects from the column built for a field is what the predicate on the
field matches, over exactly the comparable entries. -/
theorem selection_matches_iff :
    (∀ vec, buildFieldVector n field entries = .ok vec → SelectsMatches n field entries vec) ↔
      Comparable field entries := by
  unfold buildFieldVector
  by_cases hrecord : field = "_record"
  · rw [if_pos hrecord, forall_ok_iff]
    exact iff_of_true (record_column _ _) (Comparable.attribute (by simp [hrecord]))
  rw [if_neg hrecord]
  by_cases hid : field = "record_id"
  · subst hid
    rw [if_pos rfl]
    refine iff_of_true (fun vec hvec => ?_) (Comparable.attribute (by simp))
    exact (selectsMatches_string hvec).mpr fun op operand => List.map_congr_left fun e _ =>
      Bool.and_true _
  rw [if_neg hid]
  by_cases horg : field = "organization_id"
  · subst horg
    rw [if_pos rfl]
    refine iff_of_true (fun vec hvec => ?_) (Comparable.attribute (by simp))
    exact (selectsMatches_string hvec).mpr fun op operand => List.map_congr_left fun e _ =>
      Bool.and_true _
  rw [if_neg horg]
  by_cases hcreated : field = "created_at"
  · subst hcreated
    rw [if_pos rfl, forall_ok_iff, timestamp_column_iff ⟨by decide, by decide, by decide⟩,
      comparable_created]
  rw [if_neg hcreated]
  by_cases hupdated : field = "updated_at"
  · subst hupdated
    rw [if_pos rfl, forall_ok_iff, timestamp_column_iff ⟨by decide, by decide, by decide⟩,
      comparable_updated]
  rw [if_neg hupdated]
  by_cases hversion : field = "version"
  · subst hversion
    rw [if_pos rfl, forall_ok_iff]
    exact iff_of_true (version_column entries) (Comparable.attribute (by simp))
  rw [if_neg hversion, data_column_iff ⟨hid, horg, hversion⟩]
  exact (comparable_data (by simp [hrecord, hid, horg, hcreated, hupdated, hversion])).symm

end Cells

def flagged : RecordEntry where
  record := ⟨"support", "tickets", "acme", "t1", [⟨"urgent", boolValue true⟩], [], 0, 0⟩
  source := "import"
  version := 1
  bytes := 0
  expiresAt := 0

/-- The flag of a ticket is selected as the number one, but filtered as no number at all. -/
theorem bool_flag_selected_not_filtered :
    ∃ vec words, buildFieldVector wholeFloats "urgent" [flagged] = .ok vec ∧
      vec.selectInt64 .ge 0 = some words ∧
      selectedRows words 1 = [true] ∧
        [flagged].map ((ColumnPredicate.mk "urgent" .ge (.int64 0)).matches wholeFloats) =
          [false] := by
  refine ⟨_, _, rfl, rfl, ?_, ?_⟩
  · decide +kernel
  · decide +kernel

end Foundation.Hermes
