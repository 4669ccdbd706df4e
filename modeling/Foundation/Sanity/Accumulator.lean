import Foundation.Spec.Accumulator

/-! A scope accumulator is balanced when its counts and sums are those of the record states
it retains. Adding and removing a state keeps it so, within the bound on distinct values. -/

namespace Foundation

variable {M : Type}

namespace GoMap

variable {K V : Type} [DecidableEq K]

theorem insert_erase_self (m : GoMap K V) (k : K) (v : V) : (m.erase k).insert k v = m.insert k v :=
  Finmap.ext_lookup fun k' => by
    rw [lookup_insert_if, lookup_insert_if, lookup_erase_if]
    split_ifs <;> rfl

theorem le_total {f : V → ℤ} (hf : ∀ v, 0 ≤ f v) {m : GoMap K V} {k : K} {v : V}
    (h : m.lookup k = some v) :
    f v ≤ total f m := by
  have hle := Finset.single_le_sum (f := fun k => ((m.lookup k).map f).getD 0) (s := m.keys)
    (fun k _ => by cases m.lookup k with
      | none => exact le_rfl
      | some v => exact hf v) ((mem_keys_iff m k).mpr ⟨v, h⟩)
  rwa [h] at hle

theorem exists_of_total_pos {f : V → ℤ} {m : GoMap K V} (h : 0 < total f m) :
    ∃ k v, m.lookup k = some v ∧ 0 < f v := by
  by_contra hno
  push Not at hno
  refine absurd h (not_lt.mpr (Finset.sum_nonpos fun k hk => ?_))
  obtain ⟨v, hv⟩ := (mem_keys_iff m k).mp hk
  rw [hv]
  exact hno k v hv

/-- A measure that vanishes wherever a nonnegative measure of total zero does. -/
theorem total_eq_zero_of [AddCommGroup M] {f : V → ℤ} (hf : ∀ v, 0 ≤ f v) {g : V → M}
    (hg : ∀ v, f v = 0 → g v = 0) {m : GoMap K V} (h : total f m = 0) : total g m = 0 := by
  refine Finset.sum_eq_zero fun k hk => ?_
  obtain ⟨v, hv⟩ := (mem_keys_iff m k).mp hk
  rw [hv]
  exact hg v (le_antisymm (h ▸ le_total hf hv) (hf v))

end GoMap

namespace Hermes

namespace ScopeAccumulator

def freq (sc : ScopeAccumulator) (dim : String) : GoMap String ℤ :=
  (sc.dimensionFrequencies.lookup dim).getD ∅

/-- How often a state counts towards a value. -/
def occurrences (dim value : String) (state : RecordAccumulatorState) : ℤ :=
  (((state.dimensions.lookup dim).getD []).count value : ℕ)

def carries (metric : String) (state : RecordAccumulatorState) : ℤ :=
  if state.metrics.lookup metric = none then 0 else 1

def amount (metric : String) (state : RecordAccumulatorState) : ℚ :=
  (state.metrics.lookup metric).getD 0

def countOf (sc : ScopeAccumulator) (metric : String) : ℤ :=
  ((sc.metrics.lookup metric).map (·.count)).getD 0

def sumOf (sc : ScopeAccumulator) (metric : String) : ℚ :=
  ((sc.metrics.lookup metric).map (·.sum)).getD 0

structure Balanced (sc : ScopeAccumulator) : Prop where
  positive : ∀ dim, Tally.Positive (sc.freq dim)
  values : ∀ dim value, Tally.count (sc.freq dim) value = sc.records.total (occurrences dim value)
  counted : ∀ metric acc, sc.metrics.lookup metric = some acc → 0 < acc.count
  count : ∀ metric, sc.countOf metric = sc.records.total (carries metric)
  sum : ∀ metric, sc.sumOf metric = sc.records.total (amount metric)

structure MetricsBalanced (sc : ScopeAccumulator) : Prop where
  counted : ∀ metric acc, sc.metrics.lookup metric = some acc → 0 < acc.count
  count : ∀ metric, sc.countOf metric = sc.records.total (carries metric)
  sum : ∀ metric, sc.sumOf metric = sc.records.total (amount metric)

theorem occurrences_nonneg (dim value : String) (state : RecordAccumulatorState) :
    0 ≤ occurrences dim value state := Int.natCast_nonneg _

theorem carries_nonneg (metric : String) (state : RecordAccumulatorState) :
    0 ≤ carries metric state := by
  unfold carries
  split_ifs <;> decide

theorem amount_eq_zero {metric : String} {state : RecordAccumulatorState}
    (h : carries metric state = 0) :
    amount metric state = 0 := by
  unfold carries at h
  split_ifs at h with hl
  · rw [amount, hl]
    rfl
  · cases h

/-! ### What the loops over a state's maps do -/

theorem foldl_countDimension (l : List (String × List String)) (sc : ScopeAccumulator) :
    l.foldl countDimension sc = { sc with
      dimensionFrequencies := l.foldl (fun m dim => m.insert dim.1
        (Tally.addAll sc.maxDistinct ((m.lookup dim.1).getD ∅) dim.2))
          sc.dimensionFrequencies } := by
  induction l generalizing sc with
  | nil => rfl
  | cons dim rest ih =>
    rw [List.foldl_cons, ih]
    rfl

theorem foldl_addMetric (l : List (String × ℚ)) (sc : ScopeAccumulator) :
    l.foldl addMetric sc = { sc with
      metrics :=
        l.foldl (fun m metric => m.insert metric.1 (((m.lookup metric.1).getD {}).add metric.2))
        sc.metrics } := by
  induction l generalizing sc with
  | nil => rfl
  | cons metric rest ih =>
    rw [List.foldl_cons, ih]
    rfl

def uncount (m : GoMap String (GoMap String ℤ)) (dim : String) (vals : List String) :
    GoMap String (GoMap String ℤ) :=
  match m.lookup dim with
  | none => m
  | some freqMap =>
    if (Tally.removeAll freqMap vals).keys.card = 0 then m.erase dim
    else m.insert dim (Tally.removeAll freqMap vals)

theorem foldl_uncountDimension (l : List (String × List String)) (sc : ScopeAccumulator) :
    l.foldl uncountDimension sc = { sc with
      dimensionFrequencies :=
        l.foldl (fun m dim => uncount m dim.1 dim.2) sc.dimensionFrequencies } := by
  induction l generalizing sc with
  | nil => rfl
  | cons dim rest ih =>
    have hstep : sc.uncountDimension dim =
        { sc with dimensionFrequencies := uncount sc.dimensionFrequencies dim.1 dim.2 } := by
      unfold uncountDimension uncount
      cases sc.dimensionFrequencies.lookup dim.1 with
      | none => rfl
      | some freqMap =>
        dsimp only
        split_ifs <;> rfl
    rw [List.foldl_cons, hstep, ih, List.foldl_cons]

def subtract (m : GoMap String NumericAccumulator) (metric : String) (val : ℚ) :
    GoMap String NumericAccumulator :=
  match m.lookup metric with
  | none => m
  | some acc =>
    if acc.count ≤ 1 then m.erase metric
    else m.insert metric { acc with count := acc.count - 1, sum := acc.sum - val }

theorem foldl_subtractMetric (l : List (String × ℚ)) (sc : ScopeAccumulator) :
    l.foldl subtractMetric sc = { sc with
      metrics := l.foldl (fun m metric => subtract m metric.1 metric.2) sc.metrics } := by
  induction l generalizing sc with
  | nil => rfl
  | cons metric rest ih =>
    have hstep : sc.subtractMetric metric =
        { sc with metrics := subtract sc.metrics metric.1 metric.2 } := by
      unfold subtractMetric subtract
      cases sc.metrics.lookup metric.1 with
      | none => rfl
      | some acc =>
        dsimp only
        split_ifs <;> rfl
    rw [List.foldl_cons, hstep, ih, List.foldl_cons]

variable (o : RangeOrder String) (sc : ScopeAccumulator) (state : RecordAccumulatorState)

@[simp] theorem addState_records : (sc.addState o state).records = sc.records := by
  rw [addState, foldl_addMetric, foldl_countDimension]

@[simp] theorem addState_maxDistinct : (sc.addState o state).maxDistinct = sc.maxDistinct := by
  rw [addState, foldl_addMetric, foldl_countDimension]

@[simp] theorem removeStateLocked_records :
    (sc.removeStateLocked o state).records = sc.records := by
  rw [removeStateLocked, foldl_subtractMetric, foldl_uncountDimension]

@[simp] theorem removeStateLocked_maxDistinct :
    (sc.removeStateLocked o state).maxDistinct = sc.maxDistinct := by
  rw [removeStateLocked, foldl_subtractMetric, foldl_uncountDimension]

theorem addState_freq (dim : String) : (sc.addState o state).freq dim =
    Tally.addAll sc.maxDistinct (sc.freq dim) ((state.dimensions.lookup dim).getD []) := by
  rw [addState, foldl_addMetric, foldl_countDimension, freq, freq]
  dsimp only
  rw [GoMap.lookup_foldl_entries o state.dimensions
    (fun m dim vals => m.insert dim (Tally.addAll sc.maxDistinct ((m.lookup dim).getD ∅) vals))
    (fun _ vals cur => some (Tally.addAll sc.maxDistinct (cur.getD ∅) vals))
    (fun m dim vals dim' => by rw [GoMap.lookup_insert_if])]
  cases state.dimensions.lookup dim <;> rfl

theorem addState_metrics (metric : String) : (sc.addState o state).metrics.lookup metric =
    match state.metrics.lookup metric with
    | some val => some (((sc.metrics.lookup metric).getD {}).add val)
    | none => sc.metrics.lookup metric := by
  rw [addState, foldl_addMetric, foldl_countDimension]
  dsimp only
  rw [GoMap.lookup_foldl_entries o state.metrics
    (fun (m : GoMap String NumericAccumulator) metric val =>
      m.insert metric (((m.lookup metric).getD {}).add val))
    (fun _ val cur => some ((cur.getD {}).add val))
    (fun m metric val metric' => by rw [GoMap.lookup_insert_if])]
  cases state.metrics.lookup metric <;> rfl

theorem eq_empty_of_card {K V : Type} [DecidableEq K] {m : GoMap K V} (h : m.keys.card = 0) :
    m = ∅ := by
  refine Finmap.ext_lookup fun k => ?_
  have hk : k ∉ m.keys := by
    rw [Finset.card_eq_zero.mp h]
    exact Finset.notMem_empty k
  rw [Finmap.lookup_empty, ← Finmap.lookup_eq_none.mpr fun hm => hk (Finmap.mem_keys.mpr hm)]

theorem removeStateLocked_freq (dim : String) : (sc.removeStateLocked o state).freq dim =
    if sc.dimensionFrequencies.lookup dim = none then ∅
    else Tally.removeAll (sc.freq dim) ((state.dimensions.lookup dim).getD []) := by
  rw [removeStateLocked, foldl_subtractMetric, foldl_uncountDimension, freq, freq]
  dsimp only
  rw [GoMap.lookup_foldl_entries o state.dimensions uncount
    (fun _ vals cur => cur.bind fun freqMap =>
      if (Tally.removeAll freqMap vals).keys.card = 0 then none
      else some (Tally.removeAll freqMap vals))
    (fun m dim vals dim' => by
      unfold uncount
      cases hl : m.lookup dim with
      | none =>
        dsimp only
        split_ifs with h
        · rw [h, hl]
          rfl
        · rfl
      | some freqMap =>
        dsimp only [Option.bind_some]
        split_ifs with hcard h h
        · rw [h, GoMap.lookup_erase_if, if_pos rfl]
        · rw [GoMap.lookup_erase_if, if_neg h]
        · rw [h, GoMap.lookup_insert_if, if_pos rfl]
        · rw [GoMap.lookup_insert_if, if_neg h])]
  cases state.dimensions.lookup dim with
  | none =>
    cases sc.dimensionFrequencies.lookup dim with
    | none => rfl
    | some freqMap => simp [Tally.removeAll]
  | some vals =>
    cases sc.dimensionFrequencies.lookup dim with
    | none => rfl
    | some freqMap =>
      simp only [Option.bind_some, Option.getD_some, reduceCtorEq, if_false]
      split_ifs with hcard
      · exact (eq_empty_of_card hcard).symm
      · rfl

theorem removeStateLocked_metrics (metric : String) :
    (sc.removeStateLocked o state).metrics.lookup metric =
    match state.metrics.lookup metric with
    | some val => (sc.metrics.lookup metric).bind fun acc =>
      if acc.count ≤ 1 then none else some { acc with count := acc.count - 1, sum := acc.sum - val }
    | none => sc.metrics.lookup metric := by
  rw [removeStateLocked, foldl_subtractMetric, foldl_uncountDimension]
  dsimp only
  rw [GoMap.lookup_foldl_entries o state.metrics subtract (fun _ val cur => cur.bind fun acc =>
    if acc.count ≤ 1 then none else some { acc with count := acc.count - 1, sum := acc.sum - val })]
  · cases state.metrics.lookup metric <;> rfl
  intro m metric val metric'
  unfold subtract
  cases hl : m.lookup metric with
  | none =>
    dsimp only
    split_ifs with h
    · rw [h, hl]
      rfl
    · rfl
  | some acc =>
    dsimp only [Option.bind_some]
    split_ifs with hcount h h
    · rw [h, GoMap.lookup_erase_if, if_pos rfl]
    · rw [GoMap.lookup_erase_if, if_neg h]
    · rw [h, GoMap.lookup_insert_if, if_pos rfl]
    · rw [GoMap.lookup_insert_if, if_neg h]

/-! ### Balance -/

variable {o sc state}

theorem balanced_new (bound : ℤ) : (newScopeAccumulator bound).Balanced where
  positive _ := Tally.positive_empty
  values _ _ := (Tally.count_empty _).trans (GoMap.total_empty _).symm
  counted _ _ h := by cases h
  count _ := (GoMap.total_empty _).symm
  sum _ := (GoMap.total_empty _).symm

theorem Balanced.toMetrics (h : sc.Balanced) : sc.MetricsBalanced := ⟨h.counted, h.count, h.sum⟩

theorem total_erase_state [AddCommGroup M] (f : RecordAccumulatorState → M) {id : String}
    (hs : sc.records.lookup id = some state) :
    GoMap.total f (sc.records.erase id) = sc.records.total f - f state := by
  rw [GoMap.total_erase, hs]
  rfl

theorem total_insert_state [AddCommGroup M] (f : RecordAccumulatorState → M) {id : String}
    (hs : sc.records.lookup id = none) :
    GoMap.total f (sc.records.insert id state) = sc.records.total f + f state := by
  rw [GoMap.total_insert, hs]
  exact sub_zero _

theorem MetricsBalanced.carried (h : sc.MetricsBalanced) {id : String}
    (hs : sc.records.lookup id = some state) {metric : String} {val : ℚ}
    (hval : state.metrics.lookup metric = some val) :
    ∃ acc, sc.metrics.lookup metric = some acc ∧ acc.count = sc.records.total (carries metric) ∧
      acc.sum = sc.records.total (amount metric) := by
  have hcarries : carries metric state = 1 := by rw [carries, hval, if_neg (by simp)]
  have hpos : 1 ≤ sc.countOf metric := by
    rw [h.count, ← hcarries]
    exact GoMap.le_total (carries_nonneg metric) hs
  have hcount := h.count metric
  have hsum := h.sum metric
  unfold countOf at hcount hpos
  unfold sumOf at hsum
  cases hl : sc.metrics.lookup metric with
  | none =>
    rw [hl] at hpos
    exact absurd hpos (by decide)
  | some acc => exact ⟨acc, rfl, by rw [← hcount, hl]; rfl, by rw [← hsum, hl]; rfl⟩

theorem MetricsBalanced.remove (h : sc.MetricsBalanced) {id : String}
    (hs : sc.records.lookup id = some state) :
    MetricsBalanced { sc.removeStateLocked o state with records := sc.records.erase id } := by
  refine ⟨fun metric acc hl => ?_, fun metric => ?_, fun metric => ?_⟩
  · dsimp only at hl
    rw [removeStateLocked_metrics] at hl
    cases hval : state.metrics.lookup metric with
    | none =>
      rw [hval] at hl
      exact h.counted metric acc hl
    | some val =>
      obtain ⟨old, hold, -, -⟩ := h.carried hs hval
      rw [hval, hold] at hl
      dsimp only [Option.bind_some] at hl
      split_ifs at hl with hle
      obtain rfl := Option.some_inj.mp hl
      exact Int.sub_pos_of_lt (not_le.mp hle)
  · rw [total_erase_state _ hs, countOf]
    dsimp only
    rw [removeStateLocked_metrics]
    cases hval : state.metrics.lookup metric with
    | none =>
      rw [carries, if_pos hval, sub_zero]
      exact h.count metric
    | some val =>
      obtain ⟨old, hold, hcount, -⟩ := h.carried hs hval
      have hpos := h.counted metric old hold
      rw [hold, carries, hval, if_neg (by simp), ← hcount]
      dsimp only [Option.bind_some]
      split_ifs with hle
      · rw [Option.map_none, Option.getD_none]
        omega
      · rfl
  · rw [total_erase_state _ hs, sumOf]
    dsimp only
    rw [removeStateLocked_metrics]
    cases hval : state.metrics.lookup metric with
    | none =>
      rw [amount, hval, Option.getD_none, sub_zero]
      exact h.sum metric
    | some val =>
      obtain ⟨old, hold, hcount, hsum⟩ := h.carried hs hval
      have hpos := h.counted metric old hold
      rw [hold]
      dsimp only [Option.bind_some]
      split_ifs with hle
      · -- The last state that carries the metric leaves, so nothing is left to sum.
        have hzero : GoMap.total (carries metric) (sc.records.erase id) = 0 := by
          rw [total_erase_state _ hs, ← hcount, carries, hval, if_neg (by simp)]
          omega
        rw [← total_erase_state _ hs,
          GoMap.total_eq_zero_of (carries_nonneg metric) (fun _ => amount_eq_zero) hzero]
        rfl
      · rw [Option.map_some, Option.getD_some, hsum, amount, hval]
        rfl

theorem MetricsBalanced.add (h : sc.MetricsBalanced) {id : String}
    (hs : sc.records.lookup id = none) :
    MetricsBalanced { sc.addState o state with records := sc.records.insert id state } := by
  refine ⟨fun metric acc hl => ?_, fun metric => ?_, fun metric => ?_⟩
  · dsimp only at hl
    rw [addState_metrics] at hl
    cases hval : state.metrics.lookup metric with
    | none =>
      rw [hval] at hl
      exact h.counted metric acc hl
    | some val =>
      rw [hval] at hl
      obtain rfl := Option.some_inj.mp hl
      cases hold : sc.metrics.lookup metric with
      | none => exact Int.zero_lt_one
      | some old => exact Int.add_pos (h.counted metric old hold) Int.zero_lt_one
  · rw [total_insert_state _ hs, ← h.count, countOf, countOf]
    dsimp only
    rw [addState_metrics, carries]
    cases hval : state.metrics.lookup metric with
    | none => rw [if_pos rfl, add_zero]
    | some val =>
      rw [if_neg (by simp)]
      cases sc.metrics.lookup metric <;> rfl
  · rw [total_insert_state _ hs, ← h.sum, sumOf, sumOf]
    dsimp only
    rw [addState_metrics, amount]
    cases hval : state.metrics.lookup metric with
    | none => exact (add_zero _).symm
    | some val => cases sc.metrics.lookup metric <;> rfl

theorem removeStateLocked_count (hpos : ∀ dim, Tally.Positive (sc.freq dim)) (dim : String) :
    Tally.Positive ((sc.removeStateLocked o state).freq dim) ∧
      ∀ value, Tally.count ((sc.removeStateLocked o state).freq dim) value =
        max 0 (Tally.count (sc.freq dim) value - occurrences dim value state) := by
  rw [removeStateLocked_freq]
  split_ifs with hnone
  · refine ⟨Tally.positive_empty, fun value => ?_⟩
    have hzero : Tally.count (sc.freq dim) value = 0 := by
      rw [freq, hnone]
      exact Tally.count_empty value
    have hocc := occurrences_nonneg dim value state
    rw [hzero, Tally.count_empty, max_eq_left (by omega)]
  · exact Tally.removeAll_count (hpos dim) _

theorem Balanced.remove (h : sc.Balanced) {id : String} (hs : sc.records.lookup id = some state) :
    Balanced { sc.removeStateLocked o state with records := sc.records.erase id } := by
  obtain ⟨hcounted, hcount, hsum⟩ := h.toMetrics.remove hs
  refine ⟨fun dim => (removeStateLocked_count h.positive dim).1, fun dim value => ?_, hcounted,
    hcount, hsum⟩
  have hheld : occurrences dim value state ≤ Tally.count (sc.freq dim) value := by
    rw [h.values]
    exact GoMap.le_total (occurrences_nonneg dim value) hs
  rw [total_erase_state _ hs, ← h.values, ← max_eq_right (sub_nonneg.mpr hheld)]
  exact (removeStateLocked_count h.positive dim).2 value

theorem Balanced.add (h : sc.Balanced) {id : String} (hs : sc.records.lookup id = none)
    (hroom : ∀ dim,
      (((sc.freq dim).keys ∪ ((state.dimensions.lookup dim).getD []).toFinset).card : ℤ) ≤
      sc.maxDistinct) :
    Balanced { sc.addState o state with records := sc.records.insert id state } := by
  obtain ⟨hcounted, hcount, hsum⟩ := h.toMetrics.add  hs
  have hfreq := fun dim => Tally.addAll_spec (h.positive dim) (hroom dim)
  refine ⟨fun dim => ?_, fun dim value => ?_, hcounted, hcount, hsum⟩
  · rw [show freq { sc.addState o state with records := sc.records.insert id state } dim =
      (sc.addState o state).freq dim from rfl, addState_freq]
    exact (hfreq dim).1
  · rw [show freq { sc.addState o state with records := sc.records.insert id state } dim =
      (sc.addState o state).freq dim from rfl, addState_freq, (hfreq dim).2, h.values,
        total_insert_state _ hs]
    rfl

end ScopeAccumulator

/-! ### Scopes -/

namespace AccumulatorStateStore

variable {parsers : FieldParsers} {o : RangeOrder String}

theorem getScope_put (s : AccumulatorStateStore) (key key' : String) (sc : ScopeAccumulator) :
    getScope { s with scopes := s.scopes.insert key sc } key' = if key' = key then sc
      else s.getScope key' := by
  unfold getScope
  dsimp only
  rw [GoMap.lookup_insert_if]
  split_ifs <;> rfl

variable {s : AccumulatorStateStore} {now : Time} {m : AppliedMutation}

def target (s : AccumulatorStateStore) (m : AppliedMutation) : ScopeAccumulator :=
  s.getScope (scopeKey m.record.domain m.record.collection m.record.organizationID)

def put (s : AccumulatorStateStore) (m : AppliedMutation) (sc : ScopeAccumulator) :
    AccumulatorStateStore :=
  { s with
    scopes := s.scopes.insert
      (scopeKey m.record.domain m.record.collection m.record.organizationID) sc }

/-- A scope without one of its records. -/
def without (o : RangeOrder String) (sc : ScopeAccumulator) (id : String) : ScopeAccumulator :=
  match sc.records.lookup id with
  | some state => { sc.removeStateLocked o state with records := sc.records.erase id }
  | none => sc

/-- A scope with a state for a record it has none of. -/
def withState (o : RangeOrder String) (sc : ScopeAccumulator) (id : String)
    (state : RecordAccumulatorState) :
    ScopeAccumulator :=
  { sc.addState o state with records := sc.records.insert id state }

theorem applyRecord_delete (hop : m.operation = .delete)
    (hver : ∀ state, (s.target m).records.lookup m.record.recordID = some state →
      state.version ≤ m.version) :
    s.applyRecord parsers o now m = s.put m (without o (s.target m) m.record.recordID) := by
  unfold applyRecord
  dsimp only
  rw [if_pos hop, ← target, without]
  cases hl : (s.target m).records.lookup m.record.recordID with
  | none => rfl
  | some state =>
    dsimp only
    rw [if_pos (hver state hl), ScopeAccumulator.removeStateLocked_records]
    rfl

theorem addState_with_records (sc : ScopeAccumulator) (state : RecordAccumulatorState)
    (records : GoMap String RecordAccumulatorState) :
    ScopeAccumulator.addState o { sc with records := records } state =
      { sc.addState o state with records := records } := by
  rw [ScopeAccumulator.addState, ScopeAccumulator.addState, ScopeAccumulator.foldl_addMetric,
    ScopeAccumulator.foldl_countDimension, ScopeAccumulator.foldl_addMetric,
    ScopeAccumulator.foldl_countDimension]

/-- The test of an upsert or patch against the version that its scope remembers. -/
theorem any_newer_eq_false {records : GoMap String RecordAccumulatorState}
    (hver : ∀ state, records.lookup m.record.recordID = some state → state.version ≤ m.version) :
    ¬ (records.lookup m.record.recordID).any (fun state => decide (m.version < state.version)) =
      true := by
  cases hl : records.lookup m.record.recordID with
  | none => simp
  | some state => simpa using hver state hl

theorem applyRecord_store (hop : m.operation ≠ .delete)
    (hver : ∀ state, (s.target m).records.lookup m.record.recordID = some state →
      state.version ≤ m.version)
    (hroom : (((s.target m).records.insert m.record.recordID
      (s.stateOf parsers now m.record m.version)).keys.card : ℤ) ≤ s.cfg.maxRecordsPerScope) :
    s.applyRecord parsers o now m =
      s.put m (withState o (without o (s.target m) m.record.recordID) m.record.recordID
      (s.stateOf parsers now m.record m.version)) := by
  unfold applyRecord
  dsimp only
  rw [if_neg hop, ← target]
  rw [if_neg (any_newer_eq_false hver), withState, without]
  cases hl : (s.target m).records.lookup m.record.recordID with
  | none =>
    dsimp only
    rw [ScopeAccumulator.addState_records, if_neg (not_lt.mpr hroom)]
    rfl
  | some state =>
    dsimp only
    have hbase := addState_with_records (o := o) ((s.target m).removeStateLocked o state)
      (s.stateOf parsers now m.record m.version) ((s.target m).records.erase m.record.recordID)
    rw [ScopeAccumulator.addState_records, ScopeAccumulator.removeStateLocked_records,
      if_neg (not_lt.mpr hroom),
      hbase, GoMap.insert_erase_self]
    rfl

variable (o) (sc : ScopeAccumulator) (id : String)

theorem without_lookup (id' : String) :
    (without o sc id).records.lookup id' = if id' = id then none else sc.records.lookup id' := by
  unfold without
  cases hl : sc.records.lookup id with
  | none =>
    dsimp only
    split_ifs with h
    · rw [h, hl]
    · rfl
  | some state => exact GoMap.lookup_erase_if _ _ _

theorem without_maxDistinct : (without o sc id).maxDistinct = sc.maxDistinct := by
  unfold without
  cases sc.records.lookup id with
  | none => rfl
  | some state => exact ScopeAccumulator.removeStateLocked_maxDistinct o sc state

theorem without_balanced {sc : ScopeAccumulator} (h : sc.Balanced) :
    (without o sc id).Balanced := by
  unfold without
  cases hl : sc.records.lookup id with
  | none => exact h
  | some state => exact h.remove hl

theorem metricSum_eq {s : AccumulatorStateStore} {scope metric : String}
    (h : (s.getScope scope).Balanced) :
    s.metricSum scope metric = (s.getScope scope).sumOf metric := by
  unfold metricSum ScopeAccumulator.sumOf
  cases hl : (s.getScope scope).metrics.lookup metric with
  | none => rfl
  | some acc =>
    dsimp only
    rw [if_neg (h.counted metric acc hl).ne']
    rfl

end AccumulatorStateStore

end Hermes

end Foundation
