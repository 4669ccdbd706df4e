import Foundation.Lib.Tally
import Foundation.Spec.Partition

/-! The accumulator store: running value counts and metric sums of a projection's scopes,
kept up to date from the mutations an apply observer is handed. Sums are exact here. -/

namespace Foundation.Hermes

open Go

structure AccumulatorConfig where
  dimensions : List String := []
  numericMetrics : List String := []
  maxDistinctPerDimension : ℤ := 0
  maxRecordsPerScope : ℤ := 0
  ttl : ℤ := 0
deriving DecidableEq, Repr

/-- The library calls an accumulator makes on field values: `json.Unmarshal` into a string
slice, and `strconv.ParseFloat` where the result is finite. -/
structure FieldParsers where
  unmarshalStrings : List UInt8 → Option (List String)
  parseFinite : String → Option ℚ

structure RecordAccumulatorState where
  version : ℕ
  dimensions : GoMap String (List String)
  metrics : GoMap String ℚ
  expiresAt : Time
deriving DecidableEq

/-- The infinite extrema a new accumulator starts from are `none`. -/
structure NumericAccumulator where
  count : ℤ := 0
  sum : ℚ := 0
  min : Option ℚ := none
  max : Option ℚ := none
deriving DecidableEq

def NumericAccumulator.add (a : NumericAccumulator) (val : ℚ) : NumericAccumulator where
  count := a.count + 1
  sum := a.sum + val
  min := if a.min.all fun m => val < m then some val else a.min
  max := if a.max.all fun m => m < val then some val else a.max

structure MetricSummary where
  count : ℤ := 0
  sum : ℚ := 0
  min : Option ℚ := some 0
  max : Option ℚ := some 0
  mean : ℚ := 0
deriving DecidableEq

def NumericAccumulator.summary (a : NumericAccumulator) : MetricSummary :=
  if a.count = 0 then {} else ⟨a.count, a.sum, a.min, a.max, a.sum / a.count⟩

structure ScopeAccumulator where
  records : GoMap String RecordAccumulatorState := ∅
  dimensionFrequencies : GoMap String (GoMap String ℤ) := ∅
  metrics : GoMap String NumericAccumulator := ∅
  maxDistinct : ℤ

def newScopeAccumulator (maxDistinct : ℤ) : ScopeAccumulator where
  maxDistinct := if maxDistinct ≤ 0 then 10000 else maxDistinct

structure AccumulatorStateStore where
  cfg : AccumulatorConfig
  scopes : GoMap String ScopeAccumulator := ∅

def defaultAccumulatorMaxRecordsPerScope : ℤ := 10000

def newAccumulatorStateStore (cfg : AccumulatorConfig) : AccumulatorStateStore where
  cfg := { cfg with
    maxDistinctPerDimension := orDefault cfg.maxDistinctPerDimension 10000
    maxRecordsPerScope := orDefault cfg.maxRecordsPerScope defaultAccumulatorMaxRecordsPerScope
    ttl := if cfg.ttl < 0 then 0 else cfg.ttl }

def fieldValues (parsers : FieldParsers) (val : RecordValue) : Option (List String) :=
  if val.kind = .null then none
  else
    let array :=
      if val.kind = .raw ∧ 0 < val.raw.length ∧ (trimBytes val.raw).head? = some 0x5B then
        (parsers.unmarshalStrings (trimBytes val.raw)).filter fun arr => 0 < arr.length
      else none
    array.or (match val.scalarIndex with
      | some (_, text) =>
        if text ≠ "" then some [text] else if val.text ≠ "" then some [val.text] else none
      | none => if val.text ≠ "" then some [val.text] else none)

def nonEmptyText (text : String) : Option (List String) := if text ≠ "" then some [text] else none

/-- What `extractDimensions` puts under one dimension. -/
def dimensionValues (parsers : FieldParsers) (rec : DomainRecord) (dim : String) :
    Option (List String) :=
  if dim = "domain" then nonEmptyText rec.domain
  else if dim = "collection" then nonEmptyText rec.collection
  else if dim = "organization_id" then nonEmptyText rec.organizationID
  else (rec.data.get dim).bind (fieldValues parsers)

def fieldNumber (parsers : FieldParsers) (val : RecordValue) : Option ℚ :=
  val.scalarIndex.bind fun (kind, text) =>
    if kind = 'f' ∨ kind = 'i' ∨ kind = 'u' then parsers.parseFinite text else none

/-- What `extractMetrics` puts under one metric. -/
def metricValue (parsers : FieldParsers) (rec : DomainRecord) (metric : String) : Option ℚ :=
  (rec.data.get metric).bind (fieldNumber parsers)

/-- A map filled by a loop over configured names, where a name without a value is skipped. -/
def extract {V : Type} (value : String → Option V) (names : List String) : GoMap String V :=
  names.foldl (fun result name => match value name with
    | some v => result.insert name v
    | none => result) ∅

namespace AccumulatorConfig

def extractDimensions (cfg : AccumulatorConfig) (parsers : FieldParsers) (rec : DomainRecord) :
    GoMap String (List String) :=
  extract (dimensionValues parsers rec) cfg.dimensions

def extractMetrics (cfg : AccumulatorConfig) (parsers : FieldParsers) (rec : DomainRecord) :
    GoMap String ℚ :=
  extract (metricValue parsers rec) cfg.numericMetrics

end AccumulatorConfig

namespace ScopeAccumulator

def countDimension (sc : ScopeAccumulator) (dim : String × List String) : ScopeAccumulator :=
  { sc with
    dimensionFrequencies := sc.dimensionFrequencies.insert dim.1
      (Tally.addAll sc.maxDistinct ((sc.dimensionFrequencies.lookup dim.1).getD ∅) dim.2) }

def addMetric (sc : ScopeAccumulator) (metric : String × ℚ) : ScopeAccumulator :=
  { sc with
    metrics := sc.metrics.insert metric.1 (((sc.metrics.lookup metric.1).getD {}).add metric.2) }

def uncountDimension (sc : ScopeAccumulator) (dim : String × List String) : ScopeAccumulator :=
  match sc.dimensionFrequencies.lookup dim.1 with
  | none => sc
  | some freqMap =>
    let freqMap := Tally.removeAll freqMap dim.2
    if freqMap.keys.card = 0 then
      { sc with dimensionFrequencies := sc.dimensionFrequencies.erase dim.1 }
    else { sc with dimensionFrequencies := sc.dimensionFrequencies.insert dim.1 freqMap }

def subtractMetric (sc : ScopeAccumulator) (metric : String × ℚ) : ScopeAccumulator :=
  match sc.metrics.lookup metric.1 with
  | none => sc
  | some acc =>
    if acc.count ≤ 1 then { sc with metrics := sc.metrics.erase metric.1 }
    else { sc with
      metrics :=
        sc.metrics.insert metric.1 { acc with count := acc.count - 1, sum := acc.sum - metric.2 } }

def addState (o : RangeOrder String) (sc : ScopeAccumulator) (state : RecordAccumulatorState) :
    ScopeAccumulator :=
  (GoMap.entries o state.metrics).foldl addMetric
    ((GoMap.entries o state.dimensions).foldl countDimension sc)

def removeStateLocked (o : RangeOrder String) (sc : ScopeAccumulator)
    (state : RecordAccumulatorState) :
    ScopeAccumulator :=
  (GoMap.entries o state.metrics).foldl subtractMetric
    ((GoMap.entries o state.dimensions).foldl uncountDimension sc)

end ScopeAccumulator

namespace AccumulatorStateStore

def scopeKey (domain collection organizationID : String) : String :=
  domain ++ ":" ++ collection ++ ":" ++ organizationID

/-- The scope a read or a write finds, which is a new one where there is none yet. -/
def getScope (s : AccumulatorStateStore) (scope : String) : ScopeAccumulator :=
  (s.scopes.lookup scope).getD (newScopeAccumulator s.cfg.maxDistinctPerDimension)

def expiresAtLocked (s : AccumulatorStateStore) (now : Time) : Time :=
  if s.cfg.ttl ≤ 0 then 0 else now + s.cfg.ttl

def stateOf (s : AccumulatorStateStore) (parsers : FieldParsers) (now : Time) (rec : DomainRecord)
    (version : ℕ) :
    RecordAccumulatorState where
  version := version
  dimensions := s.cfg.extractDimensions parsers rec
  metrics := s.cfg.extractMetrics parsers rec
  expiresAt := s.expiresAtLocked now

def applyRecord (parsers : FieldParsers) (o : RangeOrder String) (now : Time)
    (s : AccumulatorStateStore) (m : AppliedMutation) : AccumulatorStateStore :=
  let key := scopeKey m.record.domain m.record.collection m.record.organizationID
  let sc := s.getScope key
  let existing := sc.records.lookup m.record.recordID
  let put (sc : ScopeAccumulator) : AccumulatorStateStore :=
    { s with scopes := s.scopes.insert key sc }
  if m.operation = .delete then
    match existing with
    | some state =>
      if state.version ≤ m.version then
        let sc := sc.removeStateLocked o state
        put { sc with records := sc.records.erase m.record.recordID }
      else put sc
    | none => put sc
  else if existing.any fun state => m.version < state.version then put sc
  else
    let sc := match existing with
      | some state => sc.removeStateLocked o state
      | none => sc
    let state := s.stateOf parsers now m.record m.version
    let sc := sc.addState o state
    let sc := { sc with records := sc.records.insert m.record.recordID state }
    if s.cfg.maxRecordsPerScope < sc.records.keys.card then { s with scopes := s.scopes.erase key }
    else put sc

def expired (now : Time) (state : RecordAccumulatorState) : Bool :=
  state.expiresAt ≠ 0 ∧ state.expiresAt < now

def evictRecord (o : RangeOrder String) (now : Time) (out : ℤ × ScopeAccumulator)
    (entry : String × RecordAccumulatorState) : ℤ × ScopeAccumulator :=
  if expired now entry.2 then
    let sc := out.2.removeStateLocked o entry.2
    (out.1 + 1, { sc with records := sc.records.erase entry.1 })
  else out

def evictScope (o : RangeOrder String) (now : Time) (sc : ScopeAccumulator) :
    ℤ × ScopeAccumulator :=
  (GoMap.entries o sc.records).foldl (evictRecord o now) (0, sc)

def evictNext (o : RangeOrder String) (now : Time) (out : ℤ × GoMap String ScopeAccumulator)
    (entry : String × ScopeAccumulator) : ℤ × GoMap String ScopeAccumulator :=
  let evicted := evictScope o now entry.2
  (out.1 + evicted.1, out.2.insert entry.1 evicted.2)

def evictExpired (o : RangeOrder String) (now : Time) (s : AccumulatorStateStore) :
    ℤ × AccumulatorStateStore :=
  if s.cfg.ttl ≤ 0 then (0, s)
  else
    let out := (GoMap.entries o s.scopes).foldl (evictNext o now) (0, s.scopes)
    (out.1, { s with scopes := out.2 })

def getMetricSummary (s : AccumulatorStateStore) (scope metric : String) : MetricSummary :=
  (((s.getScope scope).metrics.lookup metric).map NumericAccumulator.summary).getD {}

def valueCount (s : AccumulatorStateStore) (scope dim value : String) : ℤ :=
  Tally.count (((s.getScope scope).dimensionFrequencies.lookup dim).getD ∅) value

/-- The count and the sum of a metric, as its summary reports them. -/
def metricCount (s : AccumulatorStateStore) (scope metric : String) : ℤ :=
  (((s.getScope scope).metrics.lookup metric).map (·.count)).getD 0

def metricSum (s : AccumulatorStateStore) (scope metric : String) : ℚ :=
  match (s.getScope scope).metrics.lookup metric with
  | none => 0
  | some acc => if acc.count = 0 then 0 else acc.sum

end AccumulatorStateStore

/-- A call that changes the store. `o` is the order of the loops over maps. -/
inductive AccumulatorCall where
  | applyRecord (o : RangeOrder String) (now : Time) (m : AppliedMutation)
  | evictExpired (o : RangeOrder String) (now : Time)

def AccumulatorStateStore.exec (parsers : FieldParsers) (s : AccumulatorStateStore) :
    AccumulatorCall → AccumulatorStateStore
  | .applyRecord o now m => s.applyRecord parsers o now m
  | .evictExpired o now => (s.evictExpired o now).2

end Foundation.Hermes
