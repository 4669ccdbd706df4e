import Foundation.Sanity.Accumulator

/-! What the calls of an accumulator store do to one scope, and the records it has accepted and
not deleted, counted apart from the store. -/

namespace Foundation.Hermes

open Go AccumulatorStateStore

variable {cfg : AccumulatorConfig} {parsers : FieldParsers} {o : RangeOrder String} {now : Time}

namespace AccumulatorStateStore

def mutationScope (m : AppliedMutation) : String :=
  scopeKey m.record.domain m.record.collection m.record.organizationID

/-! ### One mutation -/

/-- The state a mutation finds is older than it, or as old. -/
def NotStale (records : GoMap String RecordAccumulatorState) (m : AppliedMutation) : Prop :=
  ∀ state, records.lookup m.record.recordID = some state → state.version ≤ m.version

instance (records : GoMap String RecordAccumulatorState) (m : AppliedMutation) :
  Decidable (NotStale records m) :=
  match h : records.lookup m.record.recordID with
  | none => isTrue fun state hs => by rw [h] at hs; cases hs
  | some state => decidable_of_iff (state.version ≤ m.version)
    ⟨fun hle state' hs => by rw [h, Option.some_inj] at hs; exact hs ▸ hle,
      fun hall => hall state h⟩

variable {s : AccumulatorStateStore} {m : AppliedMutation}

theorem applyRecord_stale (hstale : ¬ NotStale (s.target m).records m) :
    s.applyRecord parsers o now m = s.put m (s.target m) := by
  unfold NotStale at hstale
  push Not at hstale
  obtain ⟨state, hs, hlt⟩ := hstale
  unfold applyRecord
  dsimp only
  rw [← target, hs]
  by_cases hop : m.operation = .delete
  · rw [if_pos hop]
    dsimp only
    rw [if_neg (not_le.mpr hlt)]
    rfl
  · rw [if_neg hop, if_pos (by simpa using hlt)]
    rfl

theorem applyRecord_drop (hop : m.operation ≠ .delete) (hver : NotStale (s.target m).records m)
    (hfull : s.cfg.maxRecordsPerScope <
      (((s.target m).records.insert m.record.recordID
      (s.stateOf parsers now m.record m.version)).keys.card : ℤ)) :
    s.applyRecord parsers o now m = { s with scopes := s.scopes.erase (mutationScope m) } := by
  unfold applyRecord
  dsimp only
  rw [if_neg hop, ← target]
  rw [if_neg (any_newer_eq_false hver)]
  cases hl : (s.target m).records.lookup m.record.recordID with
  | none =>
    dsimp only
    rw [ScopeAccumulator.addState_records, if_pos hfull]
    rfl
  | some state =>
    dsimp only
    rw [ScopeAccumulator.addState_records, ScopeAccumulator.removeStateLocked_records, if_pos hfull]
    rfl

/-- What a mutation makes of its scope; a scope that overflows is dropped. -/
inductive Applied (parsers : FieldParsers) (o : RangeOrder String) (now : Time)
  (s : AccumulatorStateStore)
    (m : AppliedMutation) : ScopeAccumulator → Prop
  | stale : ¬ NotStale (s.target m).records m → Applied parsers o now s m (s.target m)
  | deleted : m.operation = .delete → NotStale (s.target m).records m →
      Applied parsers o now s m (without o (s.target m) m.record.recordID)
  | stored : m.operation ≠ .delete → NotStale (s.target m).records m →
      (((s.target m).records.insert m.record.recordID
        (s.stateOf parsers now m.record m.version)).keys.card : ℤ) ≤
        s.cfg.maxRecordsPerScope →
      Applied parsers o now s m (withState o (without o (s.target m) m.record.recordID)
        m.record.recordID
        (s.stateOf parsers now m.record m.version))
  | dropped : m.operation ≠ .delete → NotStale (s.target m).records m → s.cfg.maxRecordsPerScope <
      (((s.target m).records.insert m.record.recordID
        (s.stateOf parsers now m.record m.version)).keys.card : ℤ) →
      Applied parsers o now s m (newScopeAccumulator s.cfg.maxDistinctPerDimension)

theorem getScope_erase (s : AccumulatorStateStore) (key key' : String) :
    getScope { s with scopes := s.scopes.erase key } key' =
      if key' = key then newScopeAccumulator s.cfg.maxDistinctPerDimension
      else s.getScope key' := by
  unfold getScope
  dsimp only
  rw [GoMap.lookup_erase_if]
  split_ifs <;> rfl

theorem applyRecord_spec (parsers : FieldParsers) (o : RangeOrder String) (now : Time)
    (s : AccumulatorStateStore) (m : AppliedMutation) :
    (s.applyRecord parsers o now m).cfg = s.cfg ∧
      ∃ sc, Applied parsers o now s m sc ∧ ∀ scope, (s.applyRecord parsers o now m).getScope scope =
        if scope = mutationScope m then sc else s.getScope scope := by
  have hput : ∀ sc, (s.put m sc).cfg = s.cfg ∧ ∀ scope, (s.put m sc).getScope scope =
      if scope = mutationScope m then sc else s.getScope scope :=
        fun sc => ⟨rfl, fun scope => getScope_put s _ scope sc⟩
  by_cases hver : NotStale (s.target m).records m
  · by_cases hop : m.operation = .delete
    · rw [applyRecord_delete hop hver]
      exact ⟨(hput _).1, _, .deleted hop hver, (hput _).2⟩
    · by_cases hroom : (((s.target m).records.insert m.record.recordID
          (s.stateOf parsers now m.record m.version)).keys.card : ℤ) ≤ s.cfg.maxRecordsPerScope
      · rw [applyRecord_store hop hver hroom]
        exact ⟨(hput _).1, _, .stored hop hver hroom, (hput _).2⟩
      · rw [applyRecord_drop hop hver (not_le.mp hroom)]
        exact ⟨rfl, _, .dropped hop hver (not_le.mp hroom), fun scope => getScope_erase s _ scope⟩
  · rw [applyRecord_stale hver]
    exact ⟨(hput _).1, _, .stale hver, (hput _).2⟩

/-! ### Eviction -/

theorem foldl_evictNext (l : List (String × ScopeAccumulator))
    (out : ℤ × GoMap String ScopeAccumulator) :
    (l.foldl (evictNext o now) out).2 =
      l.foldl (fun m e => m.insert e.1 (evictScope o now e.2).2) out.2 := by
  induction l generalizing out with
  | nil => rfl
  | cons e rest ih =>
    rw [List.foldl_cons, ih, List.foldl_cons]
    rfl

theorem evictScope_new (bound : ℤ) :
    (evictScope o now (newScopeAccumulator bound)).2 = newScopeAccumulator bound := by
  have hnil : GoMap.entries o (newScopeAccumulator bound).records = [] := by
    rw [GoMap.entries, show (newScopeAccumulator bound).records.keys = ∅ from rfl, o.visit_empty]
    rfl
  rw [evictScope, hnil]
  rfl

/-- An eviction goes through every scope, if there is a time to live. -/
theorem evictExpired_spec (o : RangeOrder String) (now : Time) (s : AccumulatorStateStore) :
    (s.evictExpired o now).2.cfg = s.cfg ∧
    ∀ scope, (s.evictExpired o now).2.getScope scope =
      if s.cfg.ttl ≤ 0 then s.getScope scope else (evictScope o now (s.getScope scope)).2 := by
  unfold evictExpired
  split_ifs with httl
  · exact ⟨rfl, fun scope => rfl⟩
  · refine ⟨rfl, fun scope => ?_⟩
    unfold getScope
    dsimp only
    rw [foldl_evictNext, GoMap.lookup_foldl_entries o s.scopes
      (fun m k sc => m.insert k (evictScope o now sc).2)
        (fun _ sc _ => some (evictScope o now sc).2)
      (fun m k sc k' => by rw [GoMap.lookup_insert_if])]
    cases hsc : s.scopes.lookup scope with
    | none =>
      dsimp only [Option.getD_none]
      rw [evictScope_new]
    | some sc => rfl

end AccumulatorStateStore

/-! ### The records accepted and not deleted -/

abbrev Holdings := String → GoMap String RecordAccumulatorState

namespace Holdings

/-- What a mutation makes of the states of its scope. -/
def accept (cfg : AccumulatorConfig) (parsers : FieldParsers) (now : Time)
    (held : GoMap String RecordAccumulatorState) (m : AppliedMutation) :
    GoMap String RecordAccumulatorState :=
  if ¬ NotStale held m then held
  else if m.operation = .delete then held.erase m.record.recordID
  else held.insert m.record.recordID ((newAccumulatorStateStore cfg).stateOf parsers now
    m.record m.version)

def unexpired (o : RangeOrder String) (now : Time) (held : GoMap String RecordAccumulatorState) :
    GoMap String RecordAccumulatorState :=
  (GoMap.entries o held).foldl (fun out e => if expired now e.2 then out.erase e.1 else out) held

def exec (cfg : AccumulatorConfig) (parsers : FieldParsers) (held : Holdings) : AccumulatorCall →
  Holdings
  | .applyRecord _ now m =>
    Function.update held (mutationScope m) (accept cfg parsers now (held (mutationScope m)) m)
  | .evictExpired o now =>
    if (newAccumulatorStateStore cfg).cfg.ttl ≤ 0 then held
    else fun scope => unexpired o now (held scope)

theorem exec_applyRecord (held : Holdings) (m : AppliedMutation) (scope : String) :
    held.exec cfg parsers (.applyRecord o now m) scope =
      if scope = mutationScope m then accept cfg parsers now (held (mutationScope m)) m
      else held scope :=
  Function.update_apply _ _ _ _

theorem exec_evictExpired (held : Holdings) (scope : String) :
    held.exec cfg parsers (.evictExpired o now) scope =
      if (newAccumulatorStateStore cfg).cfg.ttl ≤ 0 then held scope
      else unexpired o now (held scope) := by
  rw [exec]
  split_ifs <;> rfl

end Holdings

/-- The stores that calls reach, each admitted where it is made, with the states they have accepted
since the start. -/
inductive AccumulatorReach (cfg : AccumulatorConfig) (parsers : FieldParsers)
    (admitted : AccumulatorStateStore → Holdings → AccumulatorCall → Prop) : AccumulatorStateStore →
      Holdings → Prop
  | start : AccumulatorReach cfg parsers admitted (newAccumulatorStateStore cfg) fun _ => ∅
  | step {s : AccumulatorStateStore} {held : Holdings} (call : AccumulatorCall) :
      AccumulatorReach cfg parsers admitted s held → admitted s held call →
        AccumulatorReach cfg parsers admitted (s.exec parsers call) (held.exec cfg parsers call)

/-- The values retained states have in a dimension. -/
def distinctValues (dim : String) (held : GoMap String RecordAccumulatorState) : Finset String :=
  held.keys.biUnion fun id =>
    ((held.lookup id).map fun state => ((state.dimensions.lookup dim).getD []).toFinset).getD ∅

/-- Within the bound on records and, in every dimension, that on distinct values. -/
structure WithinBounds (cfg : AccumulatorConfig) (held : GoMap String RecordAccumulatorState) :
  Prop where
  records : (held.keys.card : ℤ) ≤ (newAccumulatorStateStore cfg).cfg.maxRecordsPerScope
  values : ∀ dim ∈ cfg.dimensions,
    ((distinctValues dim held).card : ℤ) ≤
      (newAccumulatorStateStore cfg).cfg.maxDistinctPerDimension

instance (cfg : AccumulatorConfig) (held : GoMap String RecordAccumulatorState) :
  Decidable (WithinBounds cfg held) :=
  decidable_of_iff (_ ∧ _) ⟨fun h => ⟨h.1, h.2⟩, fun h => ⟨h.records, h.values⟩⟩

/-- A call that leaves its scope within the bounds. -/
def Fits (cfg : AccumulatorConfig) (parsers : FieldParsers) (held : Holdings) : AccumulatorCall →
  Prop
  | .applyRecord _ now m =>
    WithinBounds cfg (Holdings.accept cfg parsers now (held (mutationScope m)) m)
  | .evictExpired _ _ => True

instance (cfg : AccumulatorConfig) (parsers : FieldParsers) (held : Holdings) :
    (call : AccumulatorCall) → Decidable (Fits cfg parsers held call)
  | .applyRecord _ now m =>
    inferInstanceAs
      (Decidable (WithinBounds cfg (Holdings.accept cfg parsers now (held (mutationScope m)) m)))
  | .evictExpired _ _ => .isTrue trivial

theorem mem_distinctValues {dim value : String} {held : GoMap String RecordAccumulatorState} :
    value ∈ distinctValues dim held ↔ ∃ id state, held.lookup id = some state ∧
      value ∈ (state.dimensions.lookup dim).getD [] := by
  unfold distinctValues
  rw [Finset.mem_biUnion]
  constructor
  · rintro ⟨id, hid, hv⟩
    obtain ⟨state, hs⟩ := (GoMap.mem_keys_iff _ _).mp hid
    rw [hs] at hv
    exact ⟨id, state, hs, List.mem_toFinset.mp hv⟩
  · rintro ⟨id, state, hs, hv⟩
    refine ⟨id, (GoMap.mem_keys_iff _ _).mpr ⟨state, hs⟩, ?_⟩
    rw [hs]
    exact List.mem_toFinset.mpr hv

theorem ScopeAccumulator.Balanced.mem_freq {sc : ScopeAccumulator} (h : sc.Balanced)
    {dim value : String} :
    value ∈ (sc.freq dim).keys ↔ value ∈ distinctValues dim sc.records := by
  rw [(h.positive dim).mem_keys, h.values, mem_distinctValues]
  constructor
  · intro hpos
    obtain ⟨id, state, hs, hocc⟩ := GoMap.exists_of_total_pos hpos
    refine ⟨id, state, hs, List.count_pos_iff.mp ?_⟩
    unfold occurrences at hocc
    exact_mod_cast hocc
  · rintro ⟨id, state, hs, hv⟩
    have hocc : 0 < occurrences dim value state := by
      unfold occurrences
      exact_mod_cast List.count_pos_iff.mpr hv
    exact hocc.trans_le (GoMap.le_total (occurrences_nonneg dim value) hs)

end Foundation.Hermes
