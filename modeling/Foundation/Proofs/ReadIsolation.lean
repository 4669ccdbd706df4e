import Foundation.Spec.Gateway

/-! Who is shown which record. A snapshot is filtered by scope and audience before it is
answered. A live delta goes wherever its topic is subscribed, and topics are texts joined
with `:` of which only the subscriber's parts are checked. -/

namespace Foundation.Projectiongw

open Go Hermes

/-- The mutation an accepted change is shown as. -/
def applied (n : Numerals) (a : AppliedMutation) : RecordMutation :=
  mutationFromRecord n a.record a.operation a.version true

/-- Mutations that a frame to one of the topics carries. -/
def Delivered (n : Numerals) (c : AudienceConfig) (accepted : List AppliedMutation)
    (keys : List String) (m : RecordMutation) : Prop :=
  ∃ key ∈ keys, m ∈ ((groupAccepted n c accepted).1.lookup key).getD []

/-- On a per-record scope, the record names an audience of the caller. -/
def Addressed (c : AudienceConfig) (scope : ProjectionScope) (audiences : List String)
    (m : RecordMutation) : Prop :=
  ∀ policy, c.resolve scope.domain scope.collection = .ok policy → policy.mode = .perRecord →
    ∃ a ∈ audiences, trimSpace a ≠ "" ∧ trimSpace a ∈ policy.audiences m

/-- What a caller of a scope may be sent live. -/
structure Belongs (c : AudienceConfig) (scope : ProjectionScope) (audiences : List String)
  (m : RecordMutation) :
    Prop where
  domain : m.domain = scope.domain
  collection : m.collection = scope.collection
  tenant : m.organizationID = scope.tenantID
  addressed : Addressed c scope audiences m

/-- What a caller of a scope may be shown in a snapshot. -/
structure Shown (c : AudienceConfig) (scope : ProjectionScope) (audiences : List String)
  (m : RecordMutation) :
    Prop where
  domain : m.domain = scope.domain
  collection : m.collection = scope.collection
  tenant : m.organizationID = "" ∨ m.organizationID = scope.tenantID
  addressed : Addressed c scope audiences m

def LiveIsolated (n : Numerals) (c : AudienceConfig) (accepted : List AppliedMutation) : Prop :=
  ∀ scope audiences keys, subscribeAudience c scope audiences = .ok keys →
    ∀ m, Delivered n c accepted keys m → Belongs c scope audiences m

def SnapshotIsolated (n : Numerals) (c : AudienceConfig) : Prop :=
  ∀ (g : Gateway) (read : String → Query → Except HermesError SnapshotPage) (req : SnapshotRequest)
    (audiences : List String) (snapshot : ProjectionSnapshot), g.audience = c →
    g.snapshotAudience n read req audiences = .ok snapshot → ∀ m ∈ snapshot.mutations,
      Shown c req.scope audiences m

/-- Without an audience a per-record scope answers nothing at all. -/
def AnonymousRefused (n : Numerals) (c : AudienceConfig) : Prop :=
  ∀ scope policy, c.resolve scope.domain scope.collection = .ok policy → policy.mode = .perRecord →
    (∃ e, subscribeAudience c scope [] = .error e) ∧
      ∀ (g : Gateway) (read : String → Query → Except HermesError SnapshotPage)
        (req : SnapshotRequest),
        g.audience = c → req.scope = scope → ∃ e, g.snapshotAudience n read req [] = .error e

/-- What a mutation's own policy appends to its scope. -/
def suffixes (c : AudienceConfig) (m : RecordMutation) : List String :=
  match c.resolve m.domain m.collection with
  | .error _ => []
  | .ok policy => if policy.mode ≠ .perRecord then [""] else (policy.audiences m).map (":@" ++ ·)

/-- The identity of the record, with what its own policy appends, spells the topic of an audience of
another scope that is addressed per record. -/
def Forges (c : AudienceConfig) (m : RecordMutation) : Prop :=
  ∃ scope policy audience suffix, validScope scope = true ∧
    c.resolve scope.domain scope.collection = .ok policy ∧
    policy.mode = .perRecord ∧ audience ≠ "" ∧ trimSpace audience = audience ∧
      mutationScope m ≠ scope ∧
    suffix ∈ suffixes c m ∧
    m.organizationID ++ ":" ++ m.domain ++ ":" ++ m.collection ++ suffix =
      scope.tenantID ++ ":" ++ scope.domain ++ ":" ++ scope.collection ++ ":@" ++ audience

section Grouping

variable {n : Numerals} {c : AudienceConfig}

theorem mem_foldl_insert (m x : RecordMutation) (key : String) (keys : List String) :
    ∀ groups : GoMap String (List RecordMutation),
      x ∈ ((keys.foldl (fun groups key => groups.insert key ((groups.lookup key).getD [] ++ [m]))
        groups).lookup
        key).getD [] ↔ x ∈ (groups.lookup key).getD [] ∨ (key ∈ keys ∧ x = m) := by
  induction keys with
  | nil => simp
  | cons k keys ih =>
    intro groups
    rw [List.foldl_cons, ih, GoMap.lookup_insert_if, List.mem_cons]
    by_cases he : key = k
    · subst he
      simp only [if_true, Option.getD_some, List.mem_append, List.mem_singleton, true_or, true_and]
      tauto
    · simp [he]

theorem mem_groupStep (a : AppliedMutation) (key : String) (x : RecordMutation)
    (acc : GoMap String (List RecordMutation) × ℕ) :
    x ∈ ((match topics c (applied n a) with
        | [] => (acc.1, acc.2 + 1)
        | keys =>
          (keys.foldl (fun groups key => groups.insert key ((groups.lookup key).getD [] ++
          [applied n a]))
            acc.1, acc.2)).1.lookup key).getD [] ↔
      x ∈ (acc.1.lookup key).getD [] ∨ (key ∈ topics c (applied n a) ∧ x = applied n a) := by
  cases topics c (applied n a) with
  | nil => simp
  | cons k ks => exact mem_foldl_insert (applied n a) x key (k :: ks) acc.1

theorem mem_foldl_group (key : String) (x : RecordMutation) (l : List AppliedMutation)
    (acc : GoMap String (List RecordMutation) × ℕ) :
    x ∈ ((l.foldl (fun (groups, undeliverable) a =>
      let m := mutationFromRecord n a.record a.operation a.version true
      match topics c m with
      | [] => (groups, undeliverable + 1)
      | keys =>
        (keys.foldl (fun groups key => groups.insert key ((groups.lookup key).getD [] ++ [m]))
        groups,
          undeliverable)) acc).1.lookup key).getD [] ↔
      x ∈ (acc.1.lookup key).getD [] ∨ ∃ a ∈ l, x = applied n a ∧ key ∈ topics c (applied n a) := by
  induction l generalizing acc with
  | nil => simp
  | cons a l ih =>
    rw [List.foldl_cons, ih]
    refine (or_congr_left (mem_groupStep a key x acc)).trans ?_
    simp only [List.mem_cons, exists_eq_or_imp]
    tauto

theorem mem_groupAccepted (accepted : List AppliedMutation) (key : String) (x : RecordMutation) :
    x ∈ ((groupAccepted n c accepted).1.lookup key).getD [] ↔
      ∃ a ∈ accepted, x = applied n a ∧ key ∈ topics c (applied n a) := by
  refine (mem_foldl_group key x accepted (∅, 0)).trans ?_
  simp

theorem delivered_iff {accepted : List AppliedMutation} {keys : List String} {m : RecordMutation} :
    Delivered n c accepted keys m ↔ ∃ a ∈ accepted, m = applied n a ∧ ∃ key ∈ keys,
      key ∈ topics c m := by
  constructor
  · rintro ⟨key, hkey, hm⟩
    obtain ⟨a, ha, rfl, ht⟩ := (mem_groupAccepted accepted key m).mp hm
    exact ⟨a, ha, rfl, key, hkey, ht⟩
  · rintro ⟨a, ha, rfl, key, hkey, ht⟩
    exact ⟨key, hkey, (mem_groupAccepted accepted key _).mpr ⟨a, ha, rfl, ht⟩⟩

/-- A topic is the scope key of the mutation with one of its suffixes. -/
theorem mem_topics_iff {m : RecordMutation} {key : String} :
    key ∈ topics c m ↔ ∃ suffix ∈ suffixes c m, key = ScopeKey (mutationScope m) ++ suffix := by
  rw [topics, suffixes]
  cases c.resolve m.domain m.collection with
  | error e => simp
  | ok policy =>
    dsimp only
    split_ifs
    · simp [String.append_empty]
    · simp only [audienceKeys, AudienceScopeKey, AudiencePolicy.audiences, List.mem_map,
        exists_exists_and_eq_and,
        String.append_assoc, @eq_comm _ key]

end Grouping

section Keeping

variable {α : Type*} {f : α → String} {step : List String → α → List String}

theorem mem_foldl_keep
    (hstep : ∀ out a, step out a = if f a = "" ∨ f a ∈ out then out else out ++ [f a]) (x : String)
    (l : List α) : ∀ out, x ∈ l.foldl step out ↔ x ∈ out ∨ (x ≠ "" ∧ ∃ a ∈ l, f a = x) := by
  induction l with
  | nil => simp
  | cons a l ih =>
    intro out
    rw [List.foldl_cons, ih, hstep]
    split_ifs with h
    · by_cases hx : f a = x
      · subst hx
        simp only [List.mem_cons]
        tauto
      · simp [hx]
    · push Not at h
      by_cases hx : f a = x
      · subst hx
        simp [h.1]
      · simp [hx, Ne.symm hx]

theorem mem_dedupeAudiences {ids : List String} {x : String} :
    x ∈ dedupeAudiences ids ↔ x ≠ "" ∧ ∃ id ∈ ids, trimSpace id = x := by
  rw [dedupeAudiences, mem_foldl_keep (f := trimSpace) (fun out a => by simp)]
  simp

theorem mem_dedupeKeys {keys : List String} {x : String} :
    x ∈ dedupeKeys keys ↔ x ≠ "" ∧ x ∈ keys := by
  rw [dedupeKeys, mem_foldl_keep (f := fun key => key) (fun out a => by simp)]
  simp

theorem dedupeAudiences_singleton {a : String} (hne : a ≠ "") (ht : trimSpace a = a) :
    dedupeAudiences [a] = [a] := by
  simp [dedupeAudiences, ht, hne]

end Keeping

/-! ### Topics as texts -/

theorem toList_colon : (":" : String).toList = [':'] := by decide

theorem toList_colonAt : (":@" : String).toList = [':', '@'] := by decide

theorem toList_scopeKey (scope : ProjectionScope) :
    (ScopeKey scope).toList = scope.tenantID.toList ++ ':' ::
      (scope.domain.toList ++ ':' :: scope.collection.toList) := by
  simp [ScopeKey, String.toList_append, toList_colon]

theorem mem_subscribeAudience {c : AudienceConfig} {scope : ProjectionScope}
    {audiences keys : List String} (h : subscribeAudience c scope audiences = .ok keys) :
    validScope scope = true ∧ ∃ policy, c.resolve scope.domain scope.collection = .ok policy ∧
      ((policy.mode ≠ .perRecord ∧ ∀ key ∈ keys, key = ScopeKey scope) ∨
        (policy.mode = .perRecord ∧
          ∀ key ∈ keys, ∃ a ∈ audiences, trimSpace a ≠ "" ∧
            key = AudienceScopeKey scope (trimSpace a))) := by
  rw [subscribeAudience, validateScope] at h
  split_ifs at h with hv
  · refine ⟨hv, ?_⟩
    cases hr : c.resolve scope.domain scope.collection with
    | error e =>
      rw [hr] at h
      cases h
    | ok policy =>
      rw [hr] at h
      refine ⟨policy, rfl, ?_⟩
      change (if policy.mode ≠ .perRecord then
        (pure (dedupeKeys [ScopeKey scope]) : Except GatewayError _)
        else if dedupeAudiences audiences = [] then throw .audienceForbidden
        else pure (dedupeKeys (audienceKeys scope (dedupeAudiences audiences)))) = .ok keys at h
      split_ifs at h with hm ha
      · cases h
        refine .inl ⟨hm, fun key hkey => ?_⟩
        simpa using (mem_dedupeKeys.mp hkey).2
      · cases h
        refine .inr ⟨not_not.mp hm, fun key hkey => ?_⟩
        obtain ⟨b, hb, rfl⟩ := List.mem_map.mp (mem_dedupeKeys.mp hkey).2
        obtain ⟨hne, a, ha, rfl⟩ := mem_dedupeAudiences.mp hb
        exact ⟨a, ha, hne, rfl⟩
  · cases h

theorem validScope_iff {scope : ProjectionScope} : validScope scope = true ↔
    (trimSpace scope.tenantID ≠ "" ∧ trimSpace scope.domain ≠ "" ∧
      trimSpace scope.collection ≠ "") ∧
      ':' ∉ scope.tenantID.toList ∧ ':' ∉ scope.domain.toList ∧ ':' ∉ scope.collection.toList := by
  simp [validScope, and_assoc]

variable {suffix : String} {policy : AudiencePolicy}

/-- The topic of a valid scope has two colons, and any other text of that shape has more or the same
parts. -/
theorem eq_of_scopeKey {scope other : ProjectionScope} (hv : validScope scope = true)
    (h : ScopeKey other ++ suffix = ScopeKey scope) :
    suffix.toList.count ':' = 0 ∧ (suffix = "" → other = scope) := by
  obtain ⟨-, ht, hd, hc⟩ := validScope_iff.mp hv
  have hl : (ScopeKey other).toList ++ suffix.toList = (ScopeKey scope).toList := by
    rw [← String.toList_append, h]
  have hcount := congrArg (List.count ':') hl
  rw [toList_scopeKey, toList_scopeKey] at hcount
  simp only [List.count_append, List.count_cons_self, List.count_eq_zero_of_not_mem ht,
    List.count_eq_zero_of_not_mem hd, List.count_eq_zero_of_not_mem hc] at hcount
  refine ⟨by omega, ?_⟩
  rintro rfl
  have ht' : ':' ∉ other.tenantID.toList := List.count_eq_zero.mp (by omega)
  have hd' : ':' ∉ other.domain.toList := List.count_eq_zero.mp (by omega)
  have hc' : ':' ∉ other.collection.toList := List.count_eq_zero.mp (by omega)
  rw [toList_scopeKey, toList_scopeKey, String.toList_empty, List.append_nil] at hl
  obtain ⟨h1, h2⟩ := append_cons_inj ht' ht hl
  obtain ⟨h2, h3⟩ := append_cons_inj hd' hd h2
  cases other
  cases scope
  simp only [ProjectionScope.mk.injEq]
  exact ⟨String.toList_inj.mp h1, String.toList_inj.mp h2, String.toList_inj.mp h3⟩

theorem mem_suffixes {c : AudienceConfig} {m : RecordMutation} (h : suffix ∈ suffixes c m) :
    ∃ policy, c.resolve m.domain m.collection = .ok policy ∧
      ((policy.mode ≠ .perRecord ∧ suffix = "") ∨
        (policy.mode = .perRecord ∧ ∃ id ∈ policy.audiences m, suffix = ":@" ++ id)) := by
  rw [suffixes] at h
  cases hr : c.resolve m.domain m.collection with
  | error e =>
    rw [hr] at h
    cases h
  | ok policy =>
    rw [hr] at h
    dsimp only at h
    refine ⟨policy, rfl, ?_⟩
    split_ifs at h with hm
    · exact .inl ⟨hm, List.mem_singleton.mp h⟩
    · obtain ⟨id, hid, rfl⟩ := List.mem_map.mp h
      exact .inr ⟨not_not.mp hm, id, hid, rfl⟩

theorem empty_mem_suffixes {c : AudienceConfig} {m : RecordMutation}
    (hr : c.resolve m.domain m.collection = .ok policy) (hm : policy.mode ≠ .perRecord) :
    "" ∈ suffixes c m := by
  rw [suffixes, hr]
  dsimp only
  rw [if_pos hm]
  exact List.mem_singleton_self ""

/-! ### Live deltas -/

section Live

variable {n : Numerals} {c : AudienceConfig} {scope : ProjectionScope}
  {audiences keys : List String}
  {m : RecordMutation}

theorem belongs_of_tenant (hv : validScope scope = true)
    (hr : c.resolve scope.domain scope.collection = .ok policy) (hm : policy.mode ≠ .perRecord)
    (hs : suffix ∈ suffixes c m) (he : ScopeKey scope = ScopeKey (mutationScope m) ++ suffix) :
    Belongs c scope audiences m := by
  obtain ⟨hcount, heq⟩ := eq_of_scopeKey hv he.symm
  obtain ⟨-, -, ⟨-, rfl⟩ | ⟨-, id, -, rfl⟩⟩ := mem_suffixes hs
  · obtain rfl := heq rfl
    refine ⟨rfl, rfl, rfl, fun other ho hper => ?_⟩
    rw [hr] at ho
    cases ho
    exact absurd hper hm
  · simp [String.toList_append, toList_colonAt] at hcount

theorem belongs_of_perRecord {suffix a : String} (ha : a ∈ audiences) (hne : trimSpace a ≠ "")
    (hr : c.resolve scope.domain scope.collection = .ok policy) (hm : policy.mode = .perRecord)
    (hs : suffix ∈ suffixes c m) (hscope : mutationScope m = scope)
    (he : AudienceScopeKey scope (trimSpace a) = ScopeKey (mutationScope m) ++ suffix) :
    Belongs c scope audiences m := by
  subst hscope
  obtain ⟨own, ho, hcase⟩ := mem_suffixes hs
  rw [show c.resolve m.domain m.collection = .ok policy from hr] at ho
  cases ho
  obtain ⟨hm', -⟩ | ⟨-, id, hid, rfl⟩ := hcase
  · exact absurd hm hm'
  refine ⟨rfl, rfl, rfl, fun other ho _ => ⟨a, ha, hne, ?_⟩⟩
  rw [hr] at ho
  cases ho
  have hid' : trimSpace a = id := by
    rw [AudienceScopeKey, String.append_assoc, String.append_right_inj,
      String.append_right_inj] at he
    exact he
  rwa [hid']

theorem belongs_of_unforged (hf : ¬ Forges c m) (h : subscribeAudience c scope audiences = .ok keys)
    {key : String} (hk : key ∈ keys) (ht : key ∈ topics c m) : Belongs c scope audiences m := by
  obtain ⟨suffix, hs, rfl⟩ := mem_topics_iff.mp ht
  obtain ⟨hv, policy, hr, ⟨hm, hkeys⟩ | ⟨hm, hkeys⟩⟩ := mem_subscribeAudience h
  · exact belongs_of_tenant hv hr hm hs (hkeys _ hk).symm
  · obtain ⟨a, ha, hne, he⟩ := hkeys _ hk
    by_cases hscope : mutationScope m = scope
    · exact belongs_of_perRecord ha hne hr hm hs hscope he.symm
    · exact absurd ⟨scope, policy, trimSpace a, suffix, hv, hr, hm, hne, trimSpace_trimSpace a,
        hscope, hs, he⟩ hf

/-- The caller another scope's topic was spelled for is sent the record. -/
theorem Forges.reaches (h : Forges c m) :
    ∃ scope audiences keys key, subscribeAudience c scope audiences = .ok keys ∧
    key ∈ keys ∧ key ∈ topics c m ∧ ¬ Belongs c scope audiences m := by
  obtain ⟨scope, policy, a, suffix, hv, hr, hm, hne, ht, hscope, hs, he⟩ := h
  have hkeys : subscribeAudience c scope [a] = .ok (dedupeKeys (audienceKeys scope [a])) := by
    rw [subscribeAudience, validateScope, if_pos hv, hr, dedupeAudiences_singleton hne ht]
    change (if policy.mode ≠ .perRecord then _ else if [a] = [] then _ else _) = _
    rw [if_neg (not_not.mpr hm), if_neg (List.cons_ne_nil a [])]
    rfl
  have hkey : AudienceScopeKey scope a ∈ dedupeKeys (audienceKeys scope [a]) := by
    refine mem_dedupeKeys.mpr ⟨fun hempty => ?_, List.mem_singleton_self _⟩
    have hlen := congrArg (fun s => s.toList.length) hempty
    simp [AudienceScopeKey, String.toList_append, toList_colonAt] at hlen
  refine ⟨scope, [a], _, _, hkeys, hkey, mem_topics_iff.mpr ⟨suffix, hs, he.symm⟩,
    fun hb => hscope ?_⟩
  rw [mutationScope, hb.tenant, hb.domain, hb.collection]

theorem liveIsolated_iff (accepted : List AppliedMutation) :
    LiveIsolated n c accepted ↔ ∀ a ∈ accepted, ¬ Forges c (applied n a) := by
  constructor
  · intro h a ha hf
    obtain ⟨scope, audiences, keys, key, hsub, hkey, ht, hno⟩ := hf.reaches
    exact hno (h scope audiences keys hsub _ (delivered_iff.mpr ⟨a, ha, rfl, key, hkey, ht⟩))
  · intro h scope audiences keys hsub m hd
    obtain ⟨a, ha, rfl, key, hkey, ht⟩ := delivered_iff.mp hd
    exact belongs_of_unforged (h a ha) hsub hkey ht

end Live

/-! ### Snapshots -/

section Snapshots

variable {n : Numerals} {c : AudienceConfig} {g : Gateway} {req : SnapshotRequest}
  {audiences : List String}

/-- What a plan that was made consists of. -/
structure Gateway.Plans (n : Numerals) (g : Gateway) (req : SnapshotRequest)
  (audiences : List String)
    (plan : SnapshotPlan) (query : Query) : Prop where
  resolved : g.resolve req.scope = .ok (plan.projection, query)
  policy : g.audience.resolve req.scope.domain req.scope.collection = .ok plan.policy
  audiences_eq : plan.audiences = dedupeAudiences audiences
  limit_eq : plan.limit = g.boundedLimit query.limit req.limit
  tenant : plan.policy.mode ≠ .perRecord → plan.queries = [{ query with limit := plan.limit }]
  perRecord : plan.policy.mode = .perRecord → plan.audiences ≠ [] ∧
    ∃ filters, snapshotAudienceFilters plan.policy plan.audiences = .ok filters ∧
      plan.queries = filters.map (audienceQuery n { query with limit := plan.limit })

theorem Gateway.snapshotPlan_ok {plan : SnapshotPlan}
    (h : g.snapshotPlan n req audiences = .ok plan) :
    ∃ query, g.Plans n req audiences plan query := by
  rw [Gateway.snapshotPlan] at h
  cases hq : g.resolve req.scope with
  | error e =>
    rw [hq] at h
    cases h
  | ok resolved =>
    obtain ⟨projection, query⟩ := resolved
    rw [hq] at h
    cases hr : g.audience.resolve req.scope.domain req.scope.collection with
    | error e =>
      rw [hr] at h
      cases h
    | ok policy =>
      rw [hr] at h
      refine ⟨query, ?_⟩
      by_cases hm : policy.mode = .perRecord
      · by_cases ha : dedupeAudiences audiences = []
        · simp [bind, Except.bind, hm, ha] at h
        · simp only [bind, Except.bind, hm, ha] at h
          cases hf : snapshotAudienceFilters policy (dedupeAudiences audiences) with
          | error e =>
            rw [hf] at h
            cases h
          | ok filters =>
            rw [hf] at h
            cases h
            exact ⟨hq, hr, rfl, rfl, fun hno => absurd hm hno, fun _ => ⟨ha, filters, hf, rfl⟩⟩
      · simp [bind, Except.bind, hm] at h
        cases h
        exact ⟨hq, hr, rfl, rfl, fun _ => rfl, fun hyes => absurd hyes hm⟩

theorem Gateway.snapshotAudience_ok {read : String → Query → Except HermesError SnapshotPage}
    {snapshot : ProjectionSnapshot} (h : g.snapshotAudience n read req audiences = .ok snapshot) :
    ∃ plan pages, g.snapshotPlan n req audiences = .ok plan ∧
      plan.queries.mapM (read plan.projection) = .ok pages ∧
      snapshot = plan.assemble req.scope pages := by
  rw [Gateway.snapshotAudience] at h
  cases hp : g.snapshotPlan n req audiences with
  | error e =>
    rw [hp] at h
    cases h
  | ok plan =>
    rw [hp] at h
    cases hr : plan.queries.mapM (read plan.projection) with
    | error e =>
      simp only [bind, Except.bind, hr, Except.mapError] at h
      cases h
    | ok pages =>
      simp only [bind, Except.bind, hr, Except.mapError] at h
      cases h
      exact ⟨plan, pages, rfl, hr, rfl⟩

theorem mem_assemble {plan : SnapshotPlan} {scope : ProjectionScope} {pages : List SnapshotPage}
    {m : RecordMutation} (h : m ∈ (plan.assemble scope pages).mutations) :
    (m.domain = scope.domain ∧ m.collection = scope.collection ∧
      (m.organizationID = "" ∨ m.organizationID = scope.tenantID)) ∧
      (plan.policy.mode = .perRecord → ∃ a ∈ plan.policy.audiences m, a ∈ plan.audiences) := by
  have hscope : ∀ l : List RecordMutation, m ∈ filterScope l scope → m.domain = scope.domain ∧
      m.collection = scope.collection ∧
        (m.organizationID = "" ∨ m.organizationID = scope.tenantID) := by
    intro l hl
    have hf := (List.mem_filter.mp hl).2
    simp only [Bool.and_eq_true, Bool.not_eq_true', Bool.or_eq_false_iff,
      Bool.and_eq_false_iff, ne_eq,
      decide_eq_false_iff_not, not_not] at hf
    exact ⟨hf.1.1, hf.1.2, hf.2⟩
  rw [SnapshotPlan.assemble] at h
  dsimp only at h
  by_cases hm : plan.policy.mode = .perRecord
  · rw [if_pos hm] at h
    obtain ⟨hl, hi⟩ := List.mem_filter.mp h
    exact ⟨hscope _ hl, fun _ => by simpa [intersects] using hi⟩
  · rw [if_neg hm] at h
    exact ⟨hscope _ h, fun hyes => absurd hyes hm⟩

theorem snapshotIsolated (n : Numerals) (c : AudienceConfig) : SnapshotIsolated n c := by
  rintro g read req audiences snapshot rfl h m hm
  obtain ⟨plan, pages, hplan, -, rfl⟩ := Gateway.snapshotAudience_ok h
  obtain ⟨query, hp⟩ := Gateway.snapshotPlan_ok hplan
  obtain ⟨⟨hd, hc, ho⟩, ha⟩ := mem_assemble hm
  refine ⟨hd, hc, ho, fun policy hr hper => ?_⟩
  rw [hp.policy] at hr
  cases hr
  obtain ⟨id, hid, hmem⟩ := ha hper
  rw [hp.audiences_eq] at hmem
  obtain ⟨hne, a, ha, rfl⟩ := mem_dedupeAudiences.mp hmem
  exact ⟨a, ha, hne, hid⟩

theorem anonymousRefused (n : Numerals) (c : AudienceConfig) : AnonymousRefused n c := by
  intro scope policy hr hm
  constructor
  · cases h : subscribeAudience c scope [] with
    | error e => exact ⟨e, rfl⟩
    | ok keys =>
      exfalso
      rw [subscribeAudience, validateScope, hr] at h
      split_ifs at h with hv
      · simp [bind, Except.bind, hm, dedupeAudiences] at h
      · cases h
  · rintro g read req rfl rfl
    cases h : g.snapshotAudience n read req [] with
    | error e => exact ⟨e, rfl⟩
    | ok snapshot =>
      obtain ⟨plan, pages, hplan, -, -⟩ := Gateway.snapshotAudience_ok h
      obtain ⟨query, hp⟩ := Gateway.snapshotPlan_ok hplan
      have he := hp.policy
      rw [hr] at he
      cases he
      exact absurd hp.audiences_eq (hp.perRecord hm).1

end Snapshots

/-- Callers are shown their own records only, live and in snapshots, exactly when no accepted record
spells the topic of another scope. -/
theorem isolated_iff_unforged (n : Numerals) (c : AudienceConfig)
    (accepted : List AppliedMutation) :
    (LiveIsolated n c accepted ∧ SnapshotIsolated n c ∧ AnonymousRefused n c) ↔
      ∀ a ∈ accepted, ¬ Forges c (applied n a) :=
  ⟨fun h => (liveIsolated_iff accepted).mp h.1,
    fun h => ⟨(liveIsolated_iff accepted).mpr h, snapshotIsolated n c,
    anonymousRefused n c⟩⟩

def ownedOrders : AudienceConfig where
  policies := (∅ : GoMap String AudiencePolicy).insert "orders/order" ⟨.perRecord, ["owner"], none⟩
  strict := false

theorem ownedOrders_valid : ownedOrders.Valid := by
  intro key policy hl _
  rw [ownedOrders, GoMap.lookup_insert_if] at hl
  split_ifs at hl
  · cases hl
    decide
  · cases hl

def forgedSpec : NormalSpec :=
  { ordersSpec with
    collection := "order:@alice"
    collection_trim := by decide
    collection_ne := by decide }

/-- A partition of that collection accepts a record that is then sent to a caller of another
collection, under a policy that `NewGateway` accepts. -/
theorem topic_forged : ownedOrders.Valid ∧ ∀ n, ¬ LiveIsolated n ownedOrders
    ((newPartition forgedSpec).applyBatchObserving (.steady 1)
      [⟨.upsert, "a:1", 1, { order "a" "open" with collection := "order:@alice" }⟩]).accepted := by
  have haccepted : ((newPartition forgedSpec).applyBatchObserving (.steady 1)
      [⟨.upsert, "a:1", 1, { order "a" "open" with collection := "order:@alice" }⟩]).accepted =
        [⟨.upsert, { order "a" "open" with collection := "order:@alice" }, 1⟩] := by
    decide +kernel
  refine ⟨ownedOrders_valid, fun n h => ?_⟩
  rw [haccepted] at h
  have hother : ownedOrders.resolve "orders" "order:@alice" = .ok ⟨.tenant, [], none⟩ := by
    rw [AudienceConfig.resolve, ownedOrders, GoMap.lookup_insert_if, if_neg (by decide)]
    rfl
  have hown : ownedOrders.resolve "orders" "order" = .ok ⟨.perRecord, ["owner"], none⟩ := by
    rw [AudienceConfig.resolve, ownedOrders, GoMap.lookup_insert_if, if_pos (by decide)]
  refine (liveIsolated_iff _).mp h _ (List.mem_singleton_self _) ⟨⟨"acme", "orders", "order"⟩,
    _, "alice", "",
    by decide, hown, rfl, by decide, by decide, fun he => ?_, ?_, ?_⟩
  · exact absurd (congrArg ProjectionScope.collection he)
      (show ¬ ("order:@alice" : String) = "order" by decide)
  · exact empty_mem_suffixes hother (by decide)
  · change ("acme" : String) ++ ":" ++ "orders" ++ ":" ++ "order:@alice" ++ "" = _
    decide

end Foundation.Projectiongw
