import Foundation.Sanity.AccumulatorRuns

/-! Whole runs of an accumulator store. Within the bounds its counts and sums are those of the
records it has accepted and not deleted; its extrema are not, once an extremal record is replaced
or deleted; and beyond the bounds its counts are true until it counts what it had let go. -/

namespace Foundation.Hermes

open Go AccumulatorStateStore

variable {cfg : AccumulatorConfig} {parsers : FieldParsers} {o : RangeOrder String} {now : Time}

/-! ### Within the bounds -/

/-- The store retains what was accepted and is balanced over it. -/
structure Exact (cfg : AccumulatorConfig) (s : AccumulatorStateStore) (held : Holdings) : Prop where
  cfg_eq : s.cfg = (newAccumulatorStateStore cfg).cfg
  records : ∀ scope, (s.getScope scope).records = held scope
  balanced : ∀ scope, (s.getScope scope).Balanced
  bound : ∀ scope, (s.getScope scope).maxDistinct =
    (newAccumulatorStateStore cfg).cfg.maxDistinctPerDimension
  configured : ∀ scope id state, (held scope).lookup id = some state →
    ∀ dim, dim ∉ cfg.dimensions → state.dimensions.lookup dim = none

theorem newScopeAccumulator_maxDistinct (cfg : AccumulatorConfig) :
    (newScopeAccumulator (newAccumulatorStateStore cfg).cfg.maxDistinctPerDimension).maxDistinct =
      (newAccumulatorStateStore cfg).cfg.maxDistinctPerDimension := by
  unfold newScopeAccumulator newAccumulatorStateStore orDefault
  dsimp only
  split_ifs <;> omega

theorem extract_lookup_none {V : Type} {value : String → Option V} {names : List String}
    {name : String} (h : name ∉ names) : (extract value names).lookup name = none := by
  unfold extract
  refine List.foldlRecOn (motive := fun out : GoMap String V => out.lookup name = none)
    names _ (by simp)
    fun out hout n hn => ?_
  cases value n with
  | none => exact hout
  | some v =>
    have hne : name ≠ n := fun heq => h (heq ▸ hn)
    dsimp only
    rw [GoMap.lookup_insert_if, if_neg hne]
    exact hout

theorem exact_new (cfg : AccumulatorConfig) :
    Exact cfg (newAccumulatorStateStore cfg) fun _ => ∅ where
  cfg_eq := rfl
  records _ := rfl
  balanced _ := ScopeAccumulator.balanced_new _
  bound _ := newScopeAccumulator_maxDistinct cfg
  configured _ _ _ h := by cases h

theorem stateOf_congr (parsers : FieldParsers) (now : Time) {s s' : AccumulatorStateStore}
    (h : s.cfg = s'.cfg) (rec : DomainRecord) (version : ℕ) :
    s.stateOf parsers now rec version = s'.stateOf parsers now rec version := by
  unfold stateOf expiresAtLocked
  rw [h]

theorem without_records (sc : ScopeAccumulator) (id : String) :
    (without o sc id).records = sc.records.erase id :=
  Finmap.ext_lookup fun id' => by rw [without_lookup, GoMap.lookup_erase_if]

theorem withState_records (sc : ScopeAccumulator) (id : String) (state : RecordAccumulatorState) :
    (withState o (without o sc id) id state).records = sc.records.insert id state := by
  unfold withState
  dsimp only
  rw [without_records, GoMap.insert_erase_self]

variable {m : AppliedMutation}

theorem accept_stale {held : GoMap String RecordAccumulatorState} (h : ¬ NotStale held m) :
    Holdings.accept cfg parsers now held m = held :=
  if_pos h

theorem accept_delete {held : GoMap String RecordAccumulatorState} (h : NotStale held m)
    (hop : m.operation = .delete) :
    Holdings.accept cfg parsers now held m = held.erase m.record.recordID := by
  unfold Holdings.accept
  rw [if_neg (not_not.mpr h), if_pos hop]

theorem accept_store {held : GoMap String RecordAccumulatorState} (h : NotStale held m)
    (hop : m.operation ≠ .delete) :
    Holdings.accept cfg parsers now held m = held.insert m.record.recordID
      ((newAccumulatorStateStore cfg).stateOf parsers now m.record m.version) := by
  unfold Holdings.accept
  rw [if_neg (not_not.mpr h), if_neg hop]

variable {state : RecordAccumulatorState}

theorem accept_configured {held : GoMap String RecordAccumulatorState}
    (h : ∀ id state, held.lookup id = some state → ∀ dim, dim ∉ cfg.dimensions →
      state.dimensions.lookup dim = none) {id : String}
    (hs : (Holdings.accept cfg parsers now held m).lookup id = some state) {dim : String}
    (hdim : dim ∉ cfg.dimensions) : state.dimensions.lookup dim = none := by
  by_cases hver : NotStale held m
  · by_cases hop : m.operation = .delete
    · rw [accept_delete hver hop, GoMap.lookup_erase_if] at hs
      split_ifs at hs
      exact h id state hs dim hdim
    · rw [accept_store hver hop, GoMap.lookup_insert_if] at hs
      split_ifs at hs
      · rw [← Option.some_inj.mp hs]
        exact extract_lookup_none hdim
      · exact h id state hs dim hdim
  · rw [accept_stale hver] at hs
    exact h id state hs dim hdim

variable {s : AccumulatorStateStore}

/-- In a scope that fits, there is room for every value of an accepted state. -/
theorem Exact.room {held : Holdings} (h : Exact cfg s held)
    (hconf : ∀ dim, dim ∉ cfg.dimensions → state.dimensions.lookup dim = none)
    (hfits : WithinBounds cfg ((held (mutationScope m)).insert m.record.recordID state))
    (dim : String) :
    ((((without o (s.target m) m.record.recordID).freq dim).keys ∪
      ((state.dimensions.lookup dim).getD []).toFinset).card : ℤ) ≤
      (without o (s.target m) m.record.recordID).maxDistinct := by
  have hbal : (without o (s.target m) m.record.recordID).Balanced :=
    without_balanced o _ (h.balanced _)
  have hrec : (without o (s.target m) m.record.recordID).records = (held (mutationScope m)).erase
      m.record.recordID := by
    rw [without_records, ← h.records]
    rfl
  rw [without_maxDistinct, show (s.target m).maxDistinct = _ from h.bound (mutationScope m)]
  have hsub : ((without o (s.target m) m.record.recordID).freq dim).keys ∪
      ((state.dimensions.lookup dim).getD []).toFinset ⊆
      distinctValues dim ((held (mutationScope m)).insert m.record.recordID state) := by
    intro value hv
    rw [mem_distinctValues]
    rcases Finset.mem_union.mp hv with hv | hv
    · obtain ⟨id, st, hs, hmem⟩ := mem_distinctValues.mp (hbal.mem_freq.mp hv)
      rw [hrec, GoMap.lookup_erase_if] at hs
      split_ifs at hs with hid
      exact ⟨id, st, by rw [GoMap.lookup_insert_if, if_neg hid, hs], hmem⟩
    · exact ⟨_, state, by rw [GoMap.lookup_insert_if, if_pos rfl], List.mem_toFinset.mp hv⟩
  by_cases hdim : dim ∈ cfg.dimensions
  · exact le_trans (by exact_mod_cast Finset.card_le_card hsub) (hfits.values dim hdim)
  · have hnone : distinctValues dim ((held (mutationScope m)).insert m.record.recordID state) =
        ∅ := by
      refine Finset.eq_empty_of_forall_notMem fun value hv => ?_
      obtain ⟨id, st, hs, hmem⟩ := mem_distinctValues.mp hv
      rw [GoMap.lookup_insert_if] at hs
      have hst : st.dimensions.lookup dim = none := by
        split_ifs at hs
        · rw [← Option.some_inj.mp hs]
          exact hconf dim hdim
        · exact h.configured _ id st hs dim hdim
      rw [hst] at hmem
      cases hmem
    rw [hnone] at hsub
    rw [Finset.subset_empty.mp hsub, Finset.card_empty, ← newScopeAccumulator_maxDistinct]
    unfold newScopeAccumulator
    dsimp only
    split_ifs <;> omega

theorem Exact.applyRecord {held : Holdings} (h : Exact cfg s held)
    (hfits : WithinBounds cfg (Holdings.accept cfg parsers now (held (mutationScope m)) m)) :
    Exact cfg (s.applyRecord parsers o now m) (held.exec cfg parsers (.applyRecord o now m)) := by
  obtain ⟨hcfg, sc, happ, hscope⟩ := applyRecord_spec parsers o now s m
  have hrec : (s.target m).records = held (mutationScope m) := h.records _
  have hstate := stateOf_congr parsers now h.cfg_eq m.record m.version
  have hconf : ∀ dim, dim ∉ cfg.dimensions →
      ((newAccumulatorStateStore cfg).stateOf parsers now m.record m.version).dimensions.lookup
        dim = none :=
    fun dim hdim => extract_lookup_none hdim
  have hsc : sc.records = Holdings.accept cfg parsers now (held (mutationScope m)) m ∧ sc.Balanced ∧
      sc.maxDistinct = (newAccumulatorStateStore cfg).cfg.maxDistinctPerDimension := by
    cases happ with
    | stale hstale =>
      rw [hrec] at hstale
      rw [accept_stale hstale]
      exact ⟨hrec, h.balanced _, h.bound _⟩
    | deleted hop hver =>
      rw [hrec] at hver
      rw [accept_delete hver hop, without_records, hrec, without_maxDistinct]
      exact ⟨rfl, without_balanced o _ (h.balanced _), h.bound _⟩
    | stored hop hver hroom =>
      rw [hrec] at hver
      rw [accept_store hver hop] at hfits ⊢
      rw [withState_records, hrec, hstate]
      refine ⟨rfl, (without_balanced o _ (h.balanced _)).add ?_ (h.room hconf hfits), ?_⟩
      · rw [without_lookup, if_pos rfl]
      · unfold withState
        dsimp only
        rw [ScopeAccumulator.addState_maxDistinct, without_maxDistinct]
        exact h.bound _
    | dropped hop hver hfull =>
      rw [hrec] at hver hfull
      rw [accept_store hver hop] at hfits
      rw [hstate, h.cfg_eq] at hfull
      exact absurd hfits.records (not_le.mpr hfull)
  refine ⟨hcfg.trans h.cfg_eq, fun scope => ?_, fun scope => ?_, fun scope => ?_,
    fun scope id state hs => ?_⟩
  · rw [hscope, Holdings.exec_applyRecord]
    split_ifs
    · exact hsc.1
    · exact h.records scope
  · rw [hscope]
    split_ifs
    · exact hsc.2.1
    · exact h.balanced scope
  · rw [hscope]
    split_ifs
    · exact hsc.2.2
    · exact h.bound scope
  · rw [Holdings.exec_applyRecord] at hs
    split_ifs at hs
    · exact fun dim hdim => accept_configured (h.configured _) hs hdim
    · exact h.configured scope id state hs

/-- What every removal of a retained state keeps is kept by an eviction. -/
theorem evictScope_rule {P : ScopeAccumulator → Prop}
    (hP : ∀ sc id state, P sc → sc.records.lookup id = some state →
      P { sc.removeStateLocked o state with records := sc.records.erase id })
    {sc : ScopeAccumulator} (h : P sc) :
    P (evictScope o now sc).2 ∧
      (evictScope o now sc).2.records = Holdings.unexpired o now sc.records := by
  have hfold : ∀ (l : List (String × RecordAccumulatorState)) (out : ℤ × ScopeAccumulator),
      (l.map Prod.fst).Nodup →
      (∀ e ∈ l, out.2.records.lookup e.1 = some e.2) → P out.2 →
        P (l.foldl (evictRecord o now) out).2 ∧
        (l.foldl (evictRecord o now) out).2.records =
          l.foldl (fun out e => if expired now e.2 then out.erase e.1 else out) out.2.records := by
    intro l
    induction l with
    | nil => exact fun out _ _ hout => ⟨hout, rfl⟩
    | cons e rest ih =>
      intro out hnodup hheld hout
      rw [List.map_cons, List.nodup_cons] at hnodup
      rw [List.foldl_cons, List.foldl_cons]
      have hrest : ∀ e' ∈ rest, out.2.records.lookup e'.1 = some e'.2 := fun e' he' =>
        hheld e' (List.mem_cons_of_mem _ he')
      by_cases hexp : expired now e.2 = true
      · have hstep : evictRecord o now out e = (out.1 + 1,
            { out.2.removeStateLocked o e.2 with records := out.2.records.erase e.1 }) := by
          unfold evictRecord
          rw [if_pos hexp]
          dsimp only
          rw [ScopeAccumulator.removeStateLocked_records]
        rw [hstep, if_pos hexp]
        refine ih _ hnodup.2 (fun e' he' => ?_) (hP _ _ _ hout (hheld e List.mem_cons_self))
        have hne : e'.1 ≠ e.1 := fun heq => hnodup.1 (heq ▸ List.mem_map_of_mem he')
        dsimp only
        rw [GoMap.lookup_erase_if, if_neg hne]
        exact hrest e' he'
      · rw [show evictRecord o now out e = out from if_neg hexp, if_neg hexp]
        exact ih out hnodup.2 hrest hout
  exact hfold _ (0, sc) (GoMap.nodup_keys_entries o sc.records)
    (fun e he => (GoMap.mem_entries o _ _ _).mp he) h

theorem Holdings.unexpired_sub {held : GoMap String RecordAccumulatorState} {id : String}
    (h : (Holdings.unexpired o now held).lookup id = some state) :
    held.lookup id = some state := by
  have hfold : ∀ (l : List (String × RecordAccumulatorState))
      (out : GoMap String RecordAccumulatorState),
      (l.foldl (fun out e => if expired now e.2 then out.erase e.1 else out) out).lookup
        id = some state →
        out.lookup id = some state := by
    intro l
    induction l with
    | nil => exact fun out hout => hout
    | cons e rest ih =>
      intro out hout
      have hnext := ih _ hout
      dsimp only at hnext
      split_ifs at hnext
      · rw [GoMap.lookup_erase_if] at hnext
        split_ifs at hnext
        exact hnext
      · exact hnext
  exact hfold _ _ h

theorem Exact.evictExpired {held : Holdings} (h : Exact cfg s held) :
    Exact cfg (s.evictExpired o now).2 (held.exec cfg parsers (.evictExpired o now)) := by
  obtain ⟨hcfg, hscope⟩ := evictExpired_spec o now s
  have hkept : ∀ scope, ((s.evictExpired o now).2.getScope scope).Balanced ∧
      ((s.evictExpired o now).2.getScope scope).maxDistinct =
        (newAccumulatorStateStore cfg).cfg.maxDistinctPerDimension ∧
      ((s.evictExpired o now).2.getScope scope).records =
        held.exec cfg parsers (.evictExpired o now) scope := by
    intro scope
    rw [hscope, h.cfg_eq, Holdings.exec_evictExpired]
    split_ifs
    · exact ⟨h.balanced scope, h.bound scope, h.records scope⟩
    · have hrule := @evictScope_rule o now (fun sc => sc.Balanced ∧
        sc.maxDistinct = (newAccumulatorStateStore cfg).cfg.maxDistinctPerDimension)
        (fun sc id state hsc hs => ⟨hsc.1.remove hs,
          (ScopeAccumulator.removeStateLocked_maxDistinct o sc state).trans hsc.2⟩)
        (s.getScope scope) ⟨h.balanced scope, h.bound scope⟩
      rw [← h.records]
      exact ⟨hrule.1.1, hrule.1.2, hrule.2⟩
  refine ⟨hcfg.trans h.cfg_eq, fun scope => (hkept scope).2.2, fun scope => (hkept scope).1,
    fun scope => (hkept scope).2.1, fun scope id state hs => h.configured scope id state ?_⟩
  rw [Holdings.exec_evictExpired] at hs
  split_ifs at hs
  · exact hs
  · exact Holdings.unexpired_sub hs

theorem AccumulatorReach.exact {held : Holdings}
    {admitted : AccumulatorStateStore → Holdings → AccumulatorCall → Prop}
    (hfits : ∀ s held call, admitted s held call → Fits cfg parsers held call)
    (h : AccumulatorReach cfg parsers admitted s held) : Exact cfg s held := by
  induction h with
  | start => exact exact_new cfg
  | step call _ hcall ih =>
    cases call with
    | applyRecord o now m => exact ih.applyRecord (hfits _ _ _ hcall)
    | evictExpired o now => exact ih.evictExpired

/-- Within the bounds, all counts and sums are those of the states accepted and still held. -/
theorem AccumulatorReach.reversible {s : AccumulatorStateStore} {held : Holdings}
    (h : AccumulatorReach cfg parsers (fun _ => Fits cfg parsers) s held) (scope : String) :
    (∀ dim value, s.valueCount scope dim value =
      GoMap.total (ScopeAccumulator.occurrences dim value) (held scope)) ∧
    (∀ metric, s.metricCount scope metric = GoMap.total (ScopeAccumulator.carries metric)
      (held scope) ∧
      s.metricSum scope metric = GoMap.total (ScopeAccumulator.amount metric) (held scope)) := by
  have hexact := h.exact fun _ _ _ hfits => hfits
  have hbal := hexact.balanced scope
  rw [← hexact.records scope]
  exact ⟨hbal.values,
    fun metric => ⟨hbal.count metric, (metricSum_eq hbal).trans (hbal.sum metric)⟩⟩

/-! ### Sales by state and price -/

def byKey : RangeOrder String := .ascendingBy id Function.injective_id

def digitParsers : FieldParsers where
  unmarshalStrings _ := none
  parseFinite text := match text.toList with
    | [c] => if c.isDigit then some ((c.toNat - 48 : ℕ) : ℚ) else none
    | _ => none

def saleRecord (recordID state : String) (price : ℤ) : DomainRecord where
  domain := "shop"
  collection := "sale"
  organizationID := "acme"
  recordID := recordID
  data := [⟨"price", intValue price⟩, ⟨"state", stringValue state⟩]

def sale (operation : Operation) (version : ℕ) (recordID state : String) (price : ℤ) :
    AccumulatorCall :=
  .applyRecord byKey 1 ⟨operation, saleRecord recordID state price, version⟩

def threeSales : AccumulatorConfig :=
  { dimensions := ["state"], numericMetrics := ["price"], maxDistinctPerDimension := 2,
    maxRecordsPerScope := 3 }

/-- The stores and the holdings that calls lead to. -/
def ran (cfg : AccumulatorConfig) (calls : List AccumulatorCall) :
    AccumulatorStateStore × Holdings :=
  calls.foldl (fun run call => (run.1.exec digitParsers call, run.2.exec cfg digitParsers call))
    (newAccumulatorStateStore cfg, fun _ => ∅)

theorem reach_ran {cfg : AccumulatorConfig}
    {admitted : AccumulatorStateStore → Holdings → AccumulatorCall → Prop}
    (calls : List AccumulatorCall)
    (h : ∀ i (hi : i < calls.length),
      admitted (ran cfg (calls.take i)).1 (ran cfg (calls.take i)).2 calls[i]) :
    AccumulatorReach cfg digitParsers admitted (ran cfg calls).1 (ran cfg calls).2 := by
  have htake : ∀ n ≤ calls.length,
      AccumulatorReach cfg digitParsers admitted (ran cfg (calls.take n)).1
        (ran cfg (calls.take n)).2 := by
    intro n
    induction n with
    | zero => exact fun _ => .start
    | succ n ih =>
      intro hn
      have hstep := AccumulatorReach.step calls[n] (ih (by omega)) (h n (by omega))
      rw [List.take_succ_eq_append_getElem (by omega), ran, List.foldl_append]
      exact hstep
  have hall := htake calls.length le_rfl
  rwa [List.take_length] at hall

def paidAndCancelled : List AccumulatorCall :=
  [sale .upsert 1 "a" "open" 3, sale .upsert 1 "b" "open" 5, sale .upsert 1 "c" "open" 7,
    sale .upsert 2 "a" "paid" 4,
    sale .delete 2 "b" "open" 5]

theorem paid_and_cancelled_reversed :
    (ran threeSales paidAndCancelled).1.valueCount "shop:sale:acme" "state" "open" = 1 ∧
      (ran threeSales paidAndCancelled).1.metricSum "shop:sale:acme" "price" = 11 := by
  have hrun : AccumulatorReach threeSales digitParsers (fun _ => Fits threeSales digitParsers)
      (ran threeSales paidAndCancelled).1 (ran threeSales paidAndCancelled).2 :=
    reach_ran paidAndCancelled (by decide +kernel)
  obtain ⟨hvalues, hmetrics⟩ := hrun.reversible "shop:sale:acme"
  exact ⟨(hvalues "state" "open").trans (by decide +kernel),
    (hmetrics "price").2.trans (by decide +kernel)⟩

/-! ### Extrema -/

/-- The values retained states carry for a metric. -/
def carriedValues (metric : String) (held : GoMap String RecordAccumulatorState) : Finset ℚ :=
  held.keys.biUnion fun id =>
    ((held.lookup id).bind fun state => state.metrics.lookup metric).toFinset

theorem mem_carriedValues {metric : String} {value : ℚ}
    {held : GoMap String RecordAccumulatorState} :
    value ∈ carriedValues metric held ↔ ∃ id state, held.lookup id = some state ∧
      state.metrics.lookup metric = some value := by
  unfold carriedValues
  rw [Finset.mem_biUnion]
  constructor
  · rintro ⟨id, -, hv⟩
    rw [Option.mem_toFinset, Option.mem_def, Option.bind_eq_some_iff] at hv
    obtain ⟨state, hs, hval⟩ := hv
    exact ⟨id, state, hs, hval⟩
  · rintro ⟨id, state, hs, hval⟩
    refine ⟨id, (GoMap.mem_keys_iff _ _).mpr ⟨state, hs⟩, ?_⟩
    rw [Option.mem_toFinset, Option.mem_def, hs]
    exact hval

def valueOf (metric : String) (state : Option RecordAccumulatorState) : Finset ℚ :=
  (state.bind fun state => state.metrics.lookup metric).toFinset

/-- What replaces a value, or what is left beside it, reaches as far down and up as it does. -/
def ReachesOver (others old new : Finset ℚ) : Prop :=
  others = ∅ ∨ ∀ v ∈ old, (∃ a ∈ others ∪ new, a ≤ v) ∧ ∃ b ∈ others ∪ new, v ≤ b

instance (others old new : Finset ℚ) : Decidable (ReachesOver others old new) :=
  inferInstanceAs (Decidable (_ ∨ _))

def metricsOf (state : Option RecordAccumulatorState) : Finset String :=
  (state.map (·.metrics.keys)).getD ∅

/-- A mutation that takes no extremum of a metric away: wherever it replaces or deletes a state and
others carry the metric, their values and the new one reach as far as the old value. -/
def KeepsExtrema (cfg : AccumulatorConfig) (parsers : FieldParsers) (held : Holdings) :
  AccumulatorCall → Prop
  | .applyRecord _ now m =>
    let before := held (mutationScope m)
    let after := Holdings.accept cfg parsers now before m
    NotStale before m → ∀ metric ∈ metricsOf (before.lookup m.record.recordID),
      ReachesOver (carriedValues metric (before.erase m.record.recordID))
        (valueOf metric (before.lookup m.record.recordID))
          (valueOf metric (after.lookup m.record.recordID))
  | .evictExpired _ _ => False

instance (cfg : AccumulatorConfig) (parsers : FieldParsers) (held : Holdings) :
    (call : AccumulatorCall) → Decidable (KeepsExtrema cfg parsers held call)
  | .applyRecord _ _ m =>
    inferInstanceAs (Decidable (NotStale (held (mutationScope m)) m → ∀ metric ∈ metricsOf _,
      ReachesOver _ _ _))
  | .evictExpired _ _ => .isFalse id

/-- The first of some values, in an order, after one of them is replaced. -/
theorem first_replace {α : Type} {r : α → α → Prop} (hrefl : ∀ a, r a a)
    (htrans : ∀ {a b c}, r a b → r b c → r a c) (hanti : ∀ {a b}, r a b → r b a → a = b)
    {others old : Set α} {low : α} (h : low ∈ others ∪ old ∧ ∀ b ∈ others ∪ old, r low b)
    {new : Option α} (hreach : ∀ v ∈ old, ∃ a ∈ others ∪ {w | new = some w}, r a v) {result : α}
    (hnone : new = none → result = low)
    (hsome : ∀ w, new = some w → result = w ∧ r w low ∨ result = low ∧ r low w) :
    result ∈ others ∪ {w | new = some w} ∧ ∀ b ∈ others ∪ {w | new = some w}, r result b := by
  obtain ⟨hmem, hlow⟩ := h
  -- The old first value is still there, or something that is not behind it.
  have hstill : ∃ a ∈ others ∪ {w | new = some w}, r a low := by
    rcases hmem with hmem | hmem
    · exact ⟨low, .inl hmem, hrefl low⟩
    · exact hreach low hmem
  obtain ⟨a, ha, hle⟩ := hstill
  have hresult : (∃ w, new = some w ∧ result = w ∧ r w low) ∨ result = low ∧ ∀ w, new = some w →
      r low w := by
    cases hnew : new with
    | none => exact .inr ⟨hnone hnew, fun w hw => by cases hw⟩
    | some w =>
      rcases hsome w hnew with hw | hw
      · exact .inl ⟨w, rfl, hw⟩
      · exact .inr ⟨hw.1, fun w' hw' => Option.some_inj.mp hw' ▸ hw.2⟩
  rcases hresult with ⟨w, hw, rfl, hlt⟩ | ⟨rfl, hlast⟩
  · refine ⟨.inr hw, ?_⟩
    rintro b (hb | hb)
    · exact htrans hlt (hlow b (.inl hb))
    · rw [Option.some_inj.mp (hw.symm.trans hb)]
      exact hrefl b
  · have heq : a = result := by
      refine hanti hle ?_
      rcases ha with ha | ha
      · exact hlow a (.inl ha)
      · exact hlast a ha
    refine ⟨heq ▸ ha, ?_⟩
    rintro b (hb | hb)
    · exact hlow b (.inl hb)
    · exact hlast b hb

/-- The extrema of every accumulator are those of the retained states. -/
def Extremal (sc : ScopeAccumulator) : Prop :=
  ∀ metric acc, sc.metrics.lookup metric = some acc → ∃ low high, acc.min = some low ∧
    acc.max = some high ∧
    IsLeast (carriedValues metric sc.records : Set ℚ) low ∧
      IsGreatest (carriedValues metric sc.records : Set ℚ) high

theorem mem_valueOf {metric : String} {value : ℚ} {state : Option RecordAccumulatorState} :
    value ∈ valueOf metric state ↔ state.bind (·.metrics.lookup metric) = some value := by
  unfold valueOf
  rw [Option.mem_toFinset, Option.mem_def]

theorem carriedValues_split (metric : String) (held : GoMap String RecordAccumulatorState)
    (id : String) :
    carriedValues metric held = carriedValues metric (held.erase id) ∪
      valueOf metric (held.lookup id) := by
  ext value
  rw [Finset.mem_union, mem_valueOf, mem_carriedValues, mem_carriedValues]
  constructor
  · rintro ⟨id', state, hs, hval⟩
    by_cases hid : id' = id
    · right
      rw [← hid, hs]
      exact hval
    · exact .inl ⟨id', state, by rw [GoMap.lookup_erase_if, if_neg hid, hs], hval⟩
  · rintro (⟨id', state, hs, hval⟩ | hval)
    · rw [GoMap.lookup_erase_if] at hs
      split_ifs at hs
      exact ⟨id', state, hs, hval⟩
    · obtain ⟨state, hs, hval⟩ := Option.bind_eq_some_iff.mp hval
      exact ⟨id, state, hs, hval⟩

variable {sc : ScopeAccumulator}

/-- What is left of an accumulator once a state is gone: its extrema, if others carry the metric. -/
theorem without_metrics (h : sc.Balanced) (id metric : String) :
    ((without o sc id).metrics.lookup metric = none ∧
      carriedValues metric (sc.records.erase id) = ∅) ∨
      ∃ old acc, sc.metrics.lookup metric = some old ∧
        (without o sc id).metrics.lookup metric = some acc ∧
        acc.min = old.min ∧ acc.max = old.max ∧ carriedValues metric (sc.records.erase id) ≠ ∅ := by
  have hbal := without_balanced o id h
  have hcount := hbal.count metric
  rw [without_records, ScopeAccumulator.countOf] at hcount
  cases hl : (without o sc id).metrics.lookup metric with
  | none =>
    refine .inl ⟨rfl, Finset.eq_empty_of_forall_notMem fun value hv => ?_⟩
    obtain ⟨id', state, hs, hval⟩ := mem_carriedValues.mp hv
    have hle := GoMap.le_total (ScopeAccumulator.carries_nonneg metric) hs
    rw [hl, Option.map_none, Option.getD_none] at hcount
    rw [← hcount, ScopeAccumulator.carries, hval, if_neg (by simp)] at hle
    exact absurd hle (by decide)
  | some acc =>
    have hpos := hbal.counted metric acc hl
    rw [hl, Option.map_some, Option.getD_some] at hcount
    have hsome : carriedValues metric (sc.records.erase id) ≠ ∅ := by
      rw [hcount] at hpos
      obtain ⟨id', state, hs, hcarries⟩ := GoMap.exists_of_total_pos hpos
      unfold ScopeAccumulator.carries at hcarries
      split_ifs at hcarries with hnone
      · exact absurd hcarries (lt_irrefl _)
      · obtain ⟨value, hval⟩ := Option.ne_none_iff_exists'.mp hnone
        exact Finset.ne_empty_of_mem (mem_carriedValues.mpr ⟨id', state, hs, hval⟩)
    right
    unfold without at hl
    cases hs : sc.records.lookup id with
    | none =>
      rw [hs] at hl
      exact ⟨acc, acc, hl, rfl, rfl, rfl, hsome⟩
    | some state =>
      rw [hs] at hl
      dsimp only at hl
      rw [ScopeAccumulator.removeStateLocked_metrics] at hl
      cases hval : state.metrics.lookup metric with
      | none =>
        rw [hval] at hl
        exact ⟨acc, acc, hl, rfl, rfl, rfl, hsome⟩
      | some val =>
        rw [hval] at hl
        obtain ⟨old, hold, hacc⟩ := Option.bind_eq_some_iff.mp hl
        split_ifs at hacc
        obtain rfl := Option.some_inj.mp hacc
        exact ⟨old, _, hold, rfl, rfl, rfl, hsome⟩

/-- A state is replaced by a new one, or by none, where the values that stay reach over its own. -/
theorem Extremal.replace {sc sc' : ScopeAccumulator} (h : Extremal sc) (hbal : sc.Balanced)
    {id : String} {new : Option RecordAccumulatorState}
    (hreach : ∀ metric ∈ metricsOf (sc.records.lookup id),
      ReachesOver (carriedValues metric (sc.records.erase id))
      (valueOf metric (sc.records.lookup id)) (valueOf metric new))
    (hvalues : ∀ metric, carriedValues metric sc'.records =
      carriedValues metric (sc.records.erase id) ∪ valueOf metric new)
    (hmetrics : ∀ metric, sc'.metrics.lookup metric = (new.bind (·.metrics.lookup metric)).elim
      ((without o sc id).metrics.lookup metric) fun val =>
      some ((((without o sc id).metrics.lookup metric).getD {}).add val)) : Extremal sc' := by
  intro metric acc hacc
  have hset : (valueOf metric new : Set ℚ) = {w | new.bind (·.metrics.lookup metric) = some w} := by
    ext w
    rw [Finset.mem_coe, mem_valueOf]
    rfl
  rw [hvalues, Finset.coe_union, hset]
  rw [hmetrics] at hacc
  rcases without_metrics (o := o) hbal id metric with ⟨hnone, hempty⟩ | ⟨old, left, hold, hleft,
    hmin, hmax, hothers⟩
  · rw [hnone] at hacc
    rw [hempty, Finset.coe_empty, Set.empty_union]
    cases hval : new.bind (·.metrics.lookup metric) with
    | none =>
      rw [hval] at hacc
      cases hacc
    | some val =>
      rw [hval] at hacc
      obtain rfl := Option.some_inj.mp hacc
      refine ⟨val, val, rfl, rfl, ⟨rfl, ?_⟩, ⟨rfl, ?_⟩⟩
      · rintro w hw
        exact (Option.some_inj.mp hw).le
      · rintro w hw
        exact (Option.some_inj.mp hw).ge
  · obtain ⟨low, high, hlow, hhigh, hleast, hgreatest⟩ := h metric old hold
    rw [carriedValues_split metric sc.records id, Finset.coe_union] at hleast hgreatest
    have hover : ∀ v ∈ (valueOf metric (sc.records.lookup id) : Set ℚ),
        (∃ a ∈ (carriedValues metric (sc.records.erase id) : Set ℚ) ∪
          {w | new.bind (·.metrics.lookup metric) = some w},
          a ≤ v) ∧
        ∃ b ∈ (carriedValues metric (sc.records.erase id) : Set ℚ) ∪
          {w | new.bind (·.metrics.lookup metric) = some w},
          v ≤ b := by
      intro v hv
      obtain ⟨state, hs, hval⟩ := Option.bind_eq_some_iff.mp (mem_valueOf.mp (Finset.mem_coe.mp hv))
      have hmetric : metric ∈ metricsOf (sc.records.lookup id) := by
        rw [metricsOf, hs]
        exact (GoMap.mem_keys_iff _ _).mpr ⟨v, hval⟩
      have hboth := (hreach metric hmetric).resolve_left hothers v (Finset.mem_coe.mp hv)
      rw [← hset, ← Finset.coe_union]
      exact hboth
    rw [hleft] at hacc
    cases hval : new.bind (·.metrics.lookup metric) with
    | none =>
      rw [hval] at hacc hover
      obtain rfl := Option.some_inj.mp hacc
      refine ⟨low, high, hmin.trans hlow, hmax.trans hhigh, ?_, ?_⟩
      · exact first_replace le_refl le_trans le_antisymm hleast (fun v hv => (hover v hv).1)
          (fun _ => rfl)
          fun w hw => by cases hw
      · exact first_replace (r := fun a b => b ≤ a) le_refl ge_trans ge_antisymm hgreatest
          (fun v hv => (hover v hv).2) (fun _ => rfl)
          fun w hw => by cases hw
    | some val =>
      rw [hval] at hacc hover
      obtain rfl := Option.some_inj.mp hacc
      refine ⟨min val low, max val high, ?_, ?_, ?_, ?_⟩
      · simp only [Option.getD_some, NumericAccumulator.add, hmin, hlow, Option.all_some,
          decide_eq_true_eq]
        split_ifs with hlt
        · rw [min_eq_left hlt.le]
        · rw [min_eq_right (not_lt.mp hlt)]
      · simp only [Option.getD_some, NumericAccumulator.add, hmax, hhigh, Option.all_some,
          decide_eq_true_eq]
        split_ifs with hlt
        · rw [max_eq_left hlt.le]
        · rw [max_eq_right (not_lt.mp hlt)]
      · refine first_replace le_refl le_trans le_antisymm hleast (fun v hv => (hover v hv).1)
          (fun hw => by cases hw)
          fun w hw => ?_
        obtain rfl := Option.some_inj.mp hw
        rcases le_total val low with hle | hle
        · exact .inl ⟨min_eq_left hle, hle⟩
        · exact .inr ⟨min_eq_right hle, hle⟩
      · refine first_replace (r := fun a b => b ≤ a) le_refl ge_trans ge_antisymm hgreatest
          (fun v hv => (hover v hv).2) (fun hw => by cases hw)
          fun w hw => ?_
        obtain rfl := Option.some_inj.mp hw
        rcases le_total high val with hle | hle
        · exact .inl ⟨max_eq_left hle, hle⟩
        · exact .inr ⟨max_eq_right hle, hle⟩

theorem extremal_new (bound : ℤ) : Extremal (newScopeAccumulator bound) :=
  fun metric acc h => by cases h

theorem Extremal.delete (h : Extremal sc) (hbal : sc.Balanced) {id : String}
    (hreach : ∀ metric ∈ metricsOf (sc.records.lookup id),
      ReachesOver (carriedValues metric (sc.records.erase id))
      (valueOf metric (sc.records.lookup id)) (valueOf metric none)) :
    Extremal (without o sc id) := by
  refine h.replace (o := o) hbal hreach (fun metric => ?_) fun metric => rfl
  rw [without_records, show valueOf metric none = ∅ from rfl, Finset.union_empty]

theorem Extremal.store (h : Extremal sc) (hbal : sc.Balanced) {id : String}
    (hreach : ∀ metric ∈ metricsOf (sc.records.lookup id),
      ReachesOver (carriedValues metric (sc.records.erase id))
      (valueOf metric (sc.records.lookup id)) (valueOf metric (some state))) :
    Extremal (withState o (without o sc id) id state) := by
  refine h.replace (o := o) hbal hreach (fun metric => ?_) fun metric => ?_
  · rw [withState_records, carriedValues_split metric _ id, GoMap.lookup_insert_if, if_pos rfl]
    congr 2
    refine Finmap.ext_lookup fun id' => ?_
    rw [GoMap.lookup_erase_if, GoMap.lookup_erase_if, GoMap.lookup_insert_if]
    split_ifs <;> rfl
  · unfold withState
    dsimp only [Option.bind_some]
    rw [ScopeAccumulator.addState_metrics]
    cases state.metrics.lookup metric <;> rfl

theorem AccumulatorReach.extremal {held : Holdings}
    (h : AccumulatorReach cfg parsers (fun _ held call => Fits cfg parsers held call ∧
      KeepsExtrema cfg parsers held call) s held) :
    ∀ scope, Extremal (s.getScope scope) := by
  induction h with
  | start => exact fun scope => extremal_new _
  | @step s held call hreach hcall ih =>
    cases call with
    | evictExpired o now => exact absurd hcall.2 id
    | applyRecord o now m =>
      have hexact := hreach.exact fun _ _ _ hboth => hboth.1
      obtain ⟨-, sc, happ, hscope⟩ := applyRecord_spec parsers o now s m
      have hrec : (s.target m).records = held (mutationScope m) := hexact.records _
      have hkeeps : KeepsExtrema cfg parsers held (.applyRecord o now m) := hcall.2
      unfold KeepsExtrema at hkeeps
      dsimp only at hkeeps
      rw [← hrec] at hkeeps
      have hbal : (s.target m).Balanced := hexact.balanced _
      have hsc : Extremal sc := by
        cases happ with
        | stale => exact ih _
        | deleted hop hver =>
          have hover := hkeeps hver
          rw [accept_delete hver hop, GoMap.lookup_erase_if, if_pos rfl] at hover
          exact Extremal.delete (ih _) hbal hover
        | stored hop hver hroom =>
          have hover := hkeeps hver
          rw [accept_store hver hop, GoMap.lookup_insert_if, if_pos rfl,
            ← stateOf_congr parsers now hexact.cfg_eq] at hover
          exact Extremal.store (ih _) hbal hover
        | dropped => exact extremal_new _
      intro scope
      change Extremal ((s.applyRecord parsers o now m).getScope scope)
      rw [hscope]
      split_ifs
      · exact hsc
      · exact ih scope

/-- In every run of mutations within the bounds that take no extremum away, a summary shows the
least and the greatest value of its metric among the states held. -/
theorem AccumulatorReach.extrema_exact {s : AccumulatorStateStore} {held : Holdings}
    (h : AccumulatorReach cfg parsers
      (fun _ held call => Fits cfg parsers held call ∧ KeepsExtrema cfg parsers held call) s held)
    (scope metric : String) (hcount : 0 < (s.getMetricSummary scope metric).count) :
    ∃ low high, (s.getMetricSummary scope metric).min = some low ∧
      (s.getMetricSummary scope metric).max = some high ∧
      IsLeast (carriedValues metric (held scope) : Set ℚ) low ∧
      IsGreatest (carriedValues metric (held scope) : Set ℚ) high := by
  have hexact := h.exact fun _ _ _ hboth => hboth.1
  rw [← hexact.records scope]
  unfold getMetricSummary at hcount ⊢
  cases hm : (s.getScope scope).metrics.lookup metric with
  | none =>
    rw [hm] at hcount
    exact absurd hcount (lt_irrefl _)
  | some acc =>
    obtain ⟨low, high, hlow, hhigh, hleast, hgreatest⟩ := h.extremal scope metric acc hm
    have hne : acc.count ≠ 0 := ((hexact.balanced scope).counted metric acc hm).ne'
    refine ⟨low, high, ?_, ?_, hleast, hgreatest⟩
    all_goals
      rw [Option.map_some, Option.getD_some, NumericAccumulator.summary, if_neg hne]
      first | exact hlow | exact hhigh

/-- The cheapest sale is cancelled, and its price stays the minimum. -/
theorem cancelled_sale_stays_cheapest : ∃ s held,
    AccumulatorReach threeSales digitParsers (fun _ => Fits threeSales digitParsers) s held ∧
      (s.getMetricSummary "shop:sale:acme" "price").count = 1 ∧
      (s.getMetricSummary "shop:sale:acme" "price").min = some 3 ∧
      carriedValues "price" (held "shop:sale:acme") = {7} :=
  ⟨_, _, reach_ran [sale .upsert 1 "a" "open" 3, sale .upsert 1 "b" "open" 7,
    sale .delete 2 "a" "open" 3]
    (by decide +kernel), by decide +kernel⟩

def middleCancelled : List AccumulatorCall :=
  [sale .upsert 1 "a" "open" 3, sale .upsert 1 "b" "open" 5, sale .upsert 1 "c" "open" 7,
    sale .delete 2 "b" "open" 5,
    sale .upsert 2 "a" "open" 2]

theorem extrema_of_middle_cancelled : ∃ low high,
    ((ran threeSales middleCancelled).1.getMetricSummary "shop:sale:acme" "price").min = some low ∧
    ((ran threeSales middleCancelled).1.getMetricSummary "shop:sale:acme" "price").max = some high ∧
    IsLeast (carriedValues "price" ((ran threeSales middleCancelled).2 "shop:sale:acme") : Set ℚ)
      low ∧
    IsGreatest (carriedValues "price" ((ran threeSales middleCancelled).2 "shop:sale:acme") : Set ℚ)
      high :=
  AccumulatorReach.extrema_exact (reach_ran middleCancelled (by decide +kernel))
    "shop:sale:acme" "price"
    (by decide +kernel)

/-! ### Beyond the bounds -/

/-- A scope that retains all it has accepted. Values it skipped at the bound are not reported. -/
structure Whole (sc : ScopeAccumulator) (held : GoMap String RecordAccumulatorState) : Prop where
  records : sc.records = held
  metrics : sc.MetricsBalanced
  positive : ∀ dim, Tally.Positive (sc.freq dim)
  values : ∀ dim value, Tally.count (sc.freq dim) value = 0 ∨
    Tally.count (sc.freq dim) value = held.total (ScopeAccumulator.occurrences dim value)

theorem whole_new (bound : ℤ) : Whole (newScopeAccumulator bound) ∅ :=
  have h := ScopeAccumulator.balanced_new bound
  ⟨rfl, h.toMetrics, h.positive, fun dim value => .inr (h.values dim value)⟩

theorem Whole.without {held : GoMap String RecordAccumulatorState} (h : Whole sc held)
    (id : String) : Whole (without o sc id) (held.erase id) := by
  have hrec : (AccumulatorStateStore.without o sc id).records = held.erase id := by
    rw [without_records, h.records]
  unfold AccumulatorStateStore.without at hrec ⊢
  cases hs : sc.records.lookup id with
  | none =>
    have herase : held.erase id = held := Finmap.ext_lookup fun id' => by
      rw [GoMap.lookup_erase_if]
      split_ifs with hid
      · rw [hid, ← h.records, hs]
      · rfl
    rw [herase]
    exact h
  | some state =>
    rw [hs] at hrec
    refine ⟨hrec, h.metrics.remove hs,
      fun dim => (ScopeAccumulator.removeStateLocked_count h.positive dim).1,
      fun dim value => ?_⟩
    have hocc := ScopeAccumulator.occurrences_nonneg dim value state
    have hle : ScopeAccumulator.occurrences dim value state ≤
        held.total (ScopeAccumulator.occurrences dim value) :=
      GoMap.le_total (ScopeAccumulator.occurrences_nonneg dim value) (h.records ▸ hs)
    have hcount := (@ScopeAccumulator.removeStateLocked_count o sc state h.positive dim).2 value
    have htotal : GoMap.total (ScopeAccumulator.occurrences dim value) (held.erase id) =
        held.total (ScopeAccumulator.occurrences dim value) - ScopeAccumulator.occurrences dim
          value state := by
      rw [← h.records]
      exact ScopeAccumulator.total_erase_state _ hs
    change Tally.count ((sc.removeStateLocked o state).freq dim) value = 0 ∨
      Tally.count ((sc.removeStateLocked o state).freq dim) value = _
    rw [hcount, htotal]
    rcases h.values dim value with hzero | htrue
    · exact .inl (by rw [hzero, max_eq_left (by omega)])
    · exact .inr (by rw [htrue, max_eq_right (by omega)])

/-- A state is added whose values were not skipped before, or are skipped again. -/
theorem Whole.withState {held : GoMap String RecordAccumulatorState} (h : Whole sc held)
    {id : String} (hs : held.lookup id = none)
    (hskip : ∀ dim, ∀ value ∈ (state.dimensions.lookup dim).getD [],
      Tally.count (sc.freq dim) value = 0 →
      0 < held.total (ScopeAccumulator.occurrences dim value) →
      sc.maxDistinct ≤ (sc.freq dim).keys.card) :
    Whole (withState o sc id state) (held.insert id state) := by
  unfold AccumulatorStateStore.withState
  have hsc : sc.records.lookup id = none := by rw [h.records, hs]
  refine ⟨by rw [h.records], h.metrics.add hsc, fun dim => ?_, fun dim value => ?_⟩
  · change Tally.Positive ((sc.addState o state).freq dim)
    rw [ScopeAccumulator.addState_freq]
    exact Tally.addAll_positive (h.positive dim) _ _
  · change Tally.count ((sc.addState o state).freq dim) value = 0 ∨
      Tally.count ((sc.addState o state).freq dim) value = _
    have htotal : GoMap.total (ScopeAccumulator.occurrences dim value) (held.insert id state) =
        held.total (ScopeAccumulator.occurrences dim value) +
          (((state.dimensions.lookup dim).getD []).count value : ℤ) := by
      rw [← h.records]
      exact ScopeAccumulator.total_insert_state _ hsc
    have hnonneg : 0 ≤ held.total (ScopeAccumulator.occurrences dim value) :=
      Finset.sum_nonneg fun id' _ => by
        cases held.lookup id' with
        | none => exact le_rfl
        | some state' => exact ScopeAccumulator.occurrences_nonneg dim value state'
    rw [ScopeAccumulator.addState_freq, htotal]
    rcases h.values dim value with hzero | htrue
    · by_cases hheld : 0 < held.total (ScopeAccumulator.occurrences dim value)
      · by_cases hmem : value ∈ (state.dimensions.lookup dim).getD []
        · exact .inl (Tally.addAll_full (h.positive dim) (hskip dim value hmem hzero hheld) _ hzero)
        · left
          rcases Tally.addAll_new (h.positive dim) sc.maxDistinct
            ((state.dimensions.lookup dim).getD []) hzero with
            hout | hout
          · exact hout
          · rw [hout, List.count_eq_zero.mpr hmem]
            rfl
      · have hnone : held.total (ScopeAccumulator.occurrences dim value) = 0 :=
          le_antisymm (not_lt.mp hheld) hnonneg
        rw [hnone, zero_add]
        exact Tally.addAll_new (h.positive dim) _ _ hzero
    · by_cases hpos : 0 < Tally.count (sc.freq dim) value
      · rw [Tally.addAll_held (h.positive dim) _ _ hpos, htrue]
        exact .inr rfl
      · have hzero : Tally.count (sc.freq dim) value = 0 :=
          le_antisymm (not_lt.mp hpos) ((h.positive dim).count_nonneg value)
        rw [← htrue, hzero, zero_add]
        exact Tally.addAll_new (h.positive dim) _ _ hzero

/-- A mutation that counts nothing on partial knowledge: its scope has not been dropped with records
still held, and a value skipped for a record still held is skipped again. -/
def Known (parsers : FieldParsers) (s : AccumulatorStateStore) (held : Holdings) : AccumulatorCall →
  Prop
  | .applyRecord o now m =>
    let rest := without o (s.target m) m.record.recordID
    m.operation = .delete ∨ ¬ NotStale (s.target m).records m ∨
      (s.target m).records = held (mutationScope m) ∧
      ∀ dim ∈ s.cfg.dimensions,
        ∀ value ∈ ((s.stateOf parsers now m.record m.version).dimensions.lookup dim).getD [],
          Tally.count (rest.freq dim) value = 0 →
          0 < GoMap.total (ScopeAccumulator.occurrences dim value)
            ((held (mutationScope m)).erase m.record.recordID) →
          rest.maxDistinct ≤ (rest.freq dim).keys.card
  | .evictExpired _ _ => False

instance (parsers : FieldParsers) (s : AccumulatorStateStore) (held : Holdings) :
    (call : AccumulatorCall) → Decidable (Known parsers s held call)
  | .applyRecord _ _ m =>
    inferInstanceAs (Decidable (m.operation = .delete ∨ ¬ NotStale (s.target m).records m ∨ _ ∧ _))
  | .evictExpired _ _ => .isFalse id

def WholeOrNew (s : AccumulatorStateStore) (held : Holdings) (scope : String) : Prop :=
  Whole (s.getScope scope) (held scope) ∨
    s.getScope scope = newScopeAccumulator s.cfg.maxDistinctPerDimension

theorem WholeOrNew.known {held : Holdings} {scope : String} (h : WholeOrNew s held scope)
    (hrec : (s.getScope scope).records = held scope) :
    Whole (s.getScope scope) (held scope) := by
  rcases h with hwhole | hnew
  · exact hwhole
  · rw [← hrec, hnew]
    exact whole_new _

theorem Whole.applied {held : Holdings} (hcfg : s.cfg = (newAccumulatorStateStore cfg).cfg)
    (h : Whole (s.target m) (held (mutationScope m))) (happ : Applied parsers o now s m sc)
    (hknown : Known parsers s held (.applyRecord o now m)) :
    Whole sc (Holdings.accept cfg parsers now (held (mutationScope m)) m) ∨
      sc = newScopeAccumulator s.cfg.maxDistinctPerDimension := by
  cases happ with
  | stale hstale =>
    rw [h.records] at hstale
    rw [accept_stale hstale]
    exact .inl h
  | deleted hop hver =>
    rw [h.records] at hver
    rw [accept_delete hver hop]
    exact .inl (h.without _)
  | stored hop hver hroom =>
    obtain ⟨-, hskip⟩ := (hknown.resolve_left hop).resolve_left (not_not.mpr hver)
    rw [h.records] at hver
    rw [accept_store hver hop, ← stateOf_congr parsers now hcfg, ← GoMap.insert_erase_self]
    refine .inl ((h.without _).withState ?_ fun dim value hv => ?_)
    · rw [GoMap.lookup_erase_if, if_pos rfl]
    · by_cases hdim : dim ∈ s.cfg.dimensions
      · exact hskip dim hdim value hv
      · have hnone : (s.stateOf parsers now m.record m.version).dimensions.lookup dim = none :=
          extract_lookup_none hdim
        rw [hnone] at hv
        cases hv
  | dropped => exact .inr rfl

theorem AccumulatorReach.wholeOrNew {held : Holdings}
    (h : AccumulatorReach cfg parsers (Known parsers) s held) :
    s.cfg = (newAccumulatorStateStore cfg).cfg ∧ ∀ scope, WholeOrNew s held scope := by
  induction h with
  | start => exact ⟨rfl, fun scope => .inl (whole_new _)⟩
  | @step s held call _ hknown ih =>
    cases call with
    | evictExpired o now => exact absurd hknown id
    | applyRecord o now m =>
      obtain ⟨hcfg, hwhole⟩ := ih
      obtain ⟨hcfg', sc, happ, hscope⟩ := applyRecord_spec parsers o now s m
      have hsc : Whole sc (Holdings.accept cfg parsers now (held (mutationScope m)) m) ∨
          sc = newScopeAccumulator s.cfg.maxDistinctPerDimension := by
        rcases hwhole (mutationScope m) with hw | hnew
        · exact Whole.applied hcfg hw happ hknown
        · -- A dropped scope stays as it is, until it is known to hold everything again.
          rcases hknown with hop | hstale | ⟨hrec, hskip⟩
          · right
            cases happ with
            | stale => exact hnew
            | deleted hop hver =>
              rw [show s.target m = _ from hnew]
              rfl
            | stored hop' => exact absurd hop hop'
            | dropped hop' => exact absurd hop hop'
          · refine absurd (fun state hs => ?_) hstale
            rw [show s.target m = _ from hnew] at hs
            cases hs
          · exact Whole.applied hcfg ((hwhole _).known hrec) happ (.inr (.inr ⟨hrec, hskip⟩))
      refine ⟨hcfg'.trans hcfg, fun scope => ?_⟩
      change WholeOrNew (s.applyRecord parsers o now m) _ scope
      unfold WholeOrNew
      rw [hscope, hcfg', Holdings.exec_applyRecord]
      split_ifs
      · exact hsc
      · exact hwhole scope

/-- In every run of mutations that count nothing on partial knowledge, a summary is empty or counts
all records accepted and not deleted, and a value that is reported has its true count. -/
theorem AccumulatorReach.counts_true {s : AccumulatorStateStore} {held : Holdings}
    (h : AccumulatorReach cfg parsers (Known parsers) s held) (scope : String) :
    (∀ metric, s.getMetricSummary scope metric = {} ∨
      (s.getMetricSummary scope metric).count = GoMap.total (ScopeAccumulator.carries metric)
        (held scope)) ∧
    ∀ dim value, s.valueCount scope dim value = 0 ∨
      s.valueCount scope dim value = GoMap.total (ScopeAccumulator.occurrences dim value)
        (held scope) := by
  rcases h.wholeOrNew.2 scope with hw | hnew
  · refine ⟨fun metric => ?_, hw.values⟩
    have hcount := hw.metrics.count metric
    unfold ScopeAccumulator.countOf at hcount
    unfold getMetricSummary
    cases hm : (s.getScope scope).metrics.lookup metric with
    | none => exact .inl rfl
    | some acc =>
      have hne : acc.count ≠ 0 := (hw.metrics.counted metric acc hm).ne'
      right
      rw [hm, Option.map_some, Option.getD_some, hw.records] at hcount
      rw [Option.map_some, Option.getD_some, NumericAccumulator.summary, if_neg hne]
      exact hcount
  · unfold getMetricSummary valueCount
    rw [hnew]
    exact ⟨fun metric => .inl rfl, fun dim value => .inl (Tally.count_empty value)⟩

def oneSale : AccumulatorConfig :=
  { threeSales with maxDistinctPerDimension := 1, maxRecordsPerScope := 1 }

def oneState : AccumulatorConfig := { threeSales with maxDistinctPerDimension := 1 }

/-- A second sale drops the scope and a third one is counted alone; and a state that was skipped for
one sale is counted for the next. -/
theorem third_sale_counted_alone :
    (∃ s held, AccumulatorReach oneSale digitParsers (fun _ _ _ => True) s held ∧
      (s.getMetricSummary "shop:sale:acme" "price").count = 1 ∧
      GoMap.total (ScopeAccumulator.carries "price") (held "shop:sale:acme") = 3) ∧
    ∃ s held, AccumulatorReach oneState digitParsers (fun _ _ _ => True) s held ∧
      s.valueCount "shop:sale:acme" "state" "paid" = 1 ∧
      GoMap.total (ScopeAccumulator.occurrences "state" "paid") (held "shop:sale:acme") = 2 := by
  refine ⟨⟨_, _, reach_ran [sale .upsert 1 "a" "open" 3, sale .upsert 1 "b" "open" 5,
    sale .upsert 1 "c" "open" 7]
    fun _ _ => trivial, ?_⟩, _, _,
      reach_ran [sale .upsert 1 "a" "open" 3, sale .upsert 1 "b" "paid" 5,
      sale .delete 2 "a" "open" 3, sale .upsert 1 "c" "paid" 7] fun _ _ => trivial, ?_⟩
  · decide +kernel
  · decide +kernel

def paidSkipped : List AccumulatorCall :=
  [sale .upsert 1 "a" "open" 3, sale .upsert 1 "b" "paid" 5, sale .upsert 1 "c" "open" 7,
    sale .upsert 2 "b" "paid" 6]

theorem open_sales_counted :
    ((ran oneState paidSkipped).1.getMetricSummary "shop:sale:acme" "price" = {} ∨
      ((ran oneState paidSkipped).1.getMetricSummary "shop:sale:acme" "price").count = 3) ∧
    ((ran oneState paidSkipped).1.valueCount "shop:sale:acme" "state" "open" = 0 ∨
      (ran oneState paidSkipped).1.valueCount "shop:sale:acme" "state" "open" = 2) := by
  have hrun : AccumulatorReach oneState digitParsers (Known digitParsers)
      (ran oneState paidSkipped).1
      (ran oneState paidSkipped).2 := reach_ran paidSkipped (by decide +kernel)
  have htrue := AccumulatorReach.counts_true hrun "shop:sale:acme"
  have hcount : GoMap.total (ScopeAccumulator.carries "price")
      ((ran oneState paidSkipped).2 "shop:sale:acme") = 3 := by
    decide +kernel
  have hopen : GoMap.total (ScopeAccumulator.occurrences "state" "open")
      ((ran oneState paidSkipped).2 "shop:sale:acme") = 2 := by
    decide +kernel
  exact ⟨hcount ▸ htrue.1 "price", hopen ▸ htrue.2 "state" "open"⟩

end Foundation.Hermes
