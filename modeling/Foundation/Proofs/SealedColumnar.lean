import Foundation.Proofs.Queries
import Foundation.Spec.SealedColumnar

/-! Sealed tables answer as fresh ones do while nothing expires. A sealed table is valid for one
epoch of the partition, and a batch that applies no event leaves the epoch as it is but may still
sweep expired records; a record that expires on its own changes no epoch at all. -/

namespace Foundation.Hermes

open Go

namespace Partition

variable {p : Partition}

/-! ### What an epoch fixes -/

/-- No stored record has expired. -/
def Unexpired (p : Partition) (now : Time) : Prop :=
  ∀ key e, p.idle.entry key = some e → Progress.expired now e = false

theorem startBatch_kept (hk : p.idle.Keyed) (env : Env) :
    (p.startBatch env).batch.Keyed ∧ (p.startBatch env).batch.part.epoch = p.epoch ∧
      (p.startBatch env).result.applied = 0 ∧
        (p.Unexpired (env.clock 0) → ∀ key, (p.startBatch env).batch.entry key =
          p.idle.entry key) := by
  refine Progress.evictExpired_rule (P := fun w => w.batch.part.epoch = p.epoch ∧
    w.result.applied = 0 ∧
    (p.Unexpired (env.clock 0) → ∀ key, w.batch.entry key = p.idle.entry key)) env ?_ hk ⟨rfl, rfl,
      fun _ _ => rfl⟩
  rintro w w' entry - ⟨hepoch, happ, hkept⟩ he hx hm - hres
  refine ⟨?_, by rw [hres, happ], fun hun => ?_⟩
  · exact hm.epoch_eq.trans hepoch
  · rw [hkept hun] at he
    rw [hun _ _ he] at hx
    cases hx

/-- A batch advances the epoch, or leaves the records to the sweep of expired ones. -/
theorem applyBatch_kept (hk : p.idle.Keyed) (env : Env) (events : List Event) :
    p.epoch < (p.applyBatchObserving env events).part.epoch ∨
      (p.applyBatchObserving env events).part.epoch = p.epoch ∧ (p.Unexpired (env.clock 0) →
        ∀ key, (p.applyBatchObserving env events).part.idle.entry key = p.idle.entry key) := by
  obtain ⟨hk', hepoch, happ, hkept⟩ := startBatch_kept hk env
  have hrules : Progress.EventRules (fun _ _ => True) (fun w => w.batch.part.epoch = p.epoch ∧
      (w.result.applied = 0 → ∀ key, w.batch.entry key = (p.startBatch env).batch.entry key)) := by
    constructor
    · rintro w w' - ⟨he, hw⟩ - ha hb
      rw [ha]
      rcases hb with hb | ⟨source, version, hb⟩
      · rw [hb]
        exact ⟨he, hw⟩
      · rw [hb]
        refine ⟨by rw [← he]; exact Partition.rememberAppliedLocked_epoch _ _ _, fun h key => ?_⟩
        rw [Batch.remember_entry, hw h]
    · rintro w w' event mid - ⟨he, -⟩ - hm - ha hb
      refine ⟨?_, fun h => by omega⟩
      rw [hb, Batch.observe_epoch, Batch.remember_part, rememberAppliedLocked_epoch,
        hm.epoch_eq, he]
  obtain ⟨w, -, ⟨he, hw⟩, hout⟩ :=
    hrules.loop hk' ⟨hepoch, fun _ _ => rfl⟩ (Progress.meets_true env 1 _ events)
  rw [hout]
  by_cases h0 : 0 < w.result.applied
  · left
    rw [Progress.finishApplyLocked, if_pos h0]
    exact Nat.lt_succ_of_le he.ge
  · right
    refine ⟨?_, fun hun key => ?_⟩
    · rw [Progress.finishApplyLocked, if_neg h0]
      exact he
    · rw [Progress.finish_entry, hw (by omega), hkept hun]

/-- A call whose sweep finds no expired record. -/
def Step.SweepsNothing (p : Partition) : Step → Prop
  | .applyBatch env _ => p.Unexpired (env.clock 0)
  | .applyRecords env _ _ _ => p.Unexpired (env.clock 0)
  | .bulkLoad _ _ => True

theorem exec_kept (hk : p.idle.Keyed) (s : Step) : p.epoch < (p.exec s).epoch ∨
    (p.exec s).epoch = p.epoch ∧
      (s.SweepsNothing p → ∀ key, (p.exec s).idle.entry key = p.idle.entry key) := by
  have hsame : p.epoch = p.epoch ∧
      (s.SweepsNothing p → ∀ key, p.idle.entry key = p.idle.entry key) :=
    ⟨rfl, fun _ _ => rfl⟩
  cases s with
  | applyBatch env events =>
    rw [exec]
    split_ifs
    · exact .inr hsame
    · exact applyBatch_kept hk env events
  | applyRecords env sourcePrefix baseVersion records =>
    rw [exec]
    split_ifs
    · exact .inr hsame
    · exact applyBatch_kept hk env _
  | bulkLoad env records =>
    rw [exec]
    split_ifs
    · exact .inr hsame
    · cases hb : p.bulkLoad env records with
      | error e => exact .inr hsame
      | ok r =>
        obtain ⟨q, result⟩ := r
        obtain ⟨load, -, rfl⟩ := bulkLoad_ok hb
        exact .inl (Nat.lt_succ_self _)

/-- Without a TTL the epoch stands for the records: it never falls, and calls that leave it as it
was leave every record as it was. -/
theorem epoch_stands_for_records (spec : NormalSpec) (before after : List Step) :
    let p := (newPartition { spec with ttl := 0 }).execAll before
    p.epoch < (p.execAll after).epoch ∨
      (p.execAll after).epoch = p.epoch ∧ ∀ key, (p.execAll after).idle.entry key =
        p.idle.entry key := by
  intro p
  have hp : Reach Step.Any _ p := Reach.start.execAll before
  clear_value p
  induction after generalizing p with
  | nil => exact .inr ⟨rfl, fun _ => rfl⟩
  | cons s rest ih =>
    have hrest := ih (p.exec s) (hp.step s trivial)
    obtain ⟨hk, hspec⟩ := hp.keyed
    have hun : ∀ now, p.Unexpired now := fun now key e he => by
      rw [Progress.expired, hk.lasting key e he (by rw [idle, hspec])]
      rfl
    rcases exec_kept hk s with hlt | ⟨heq, hkept⟩
    · exact .inl (hrest.elim hlt.trans fun h => hlt.trans_eq h.1.symm)
    · have hsame := hkept (by cases s <;> first | exact hun _ | trivial)
      simp only [heq, hsame] at hrest
      exact hrest

/-! ### Fresh tables -/

/-- The records of an organization, expired or not, in canonical order. -/
structure Holds (p : Partition) (org : String) (sorted : List RecordEntry) : Prop where
  mem_iff : ∀ e, e ∈ sorted ↔ p.idle.entry (keyOf e.record) = some e ∧ e.record.organizationID = org
  sorted : sorted.Pairwise RecordEntry.Before

theorem Holds.congr {q : Partition} {org : String} {sorted : List RecordEntry}
    (h : p.Holds org sorted) (heq : ∀ key, q.idle.entry key = p.idle.entry key) :
    q.Holds org sorted :=
  ⟨fun e => by rw [h.mem_iff, heq], h.sorted⟩

/-- No stored record of an organization has expired. -/
def UnexpiredIn (p : Partition) (org : String) (now : Time) : Prop :=
  ∀ key e, p.idle.entry key = some e → e.record.organizationID = org →
    Progress.expired now e = false

theorem answers_iff_holds {now : Time} {query : Query} {sorted : List RecordEntry}
    (hplan : query.plan.count = 0) (hun : p.UnexpiredIn (trimSpace query.organizationID) now) :
    p.Answers now query sorted ↔ p.Holds (trimSpace query.organizationID) sorted := by
  have hplanned : query.plan.planned = [] := by rw [QueryPlan.planned, hplan]; rfl
  have hsel : ∀ e, p.Selected now query e ↔
      p.idle.entry (keyOf e.record) = some e ∧
        e.record.organizationID = trimSpace query.organizationID := by
    intro e
    constructor
    · intro h
      exact ⟨h.live, h.organization⟩
    · rintro ⟨hl, ho⟩
      exact ⟨hl, hun _ e hl ho, ho, by simp [hplanned]⟩
  constructor
  · intro h
    exact ⟨fun e => (h.mem_iff e).trans (hsel e), h.sorted⟩
  · intro h
    exact ⟨fun e => (h.mem_iff e).trans (hsel e).symm, h.sorted⟩

theorem cacheable_iff {query : Query} : cacheableColumnarQuery query = true ↔
    query.limit = 0 ∧ query.plan.count = 0 := by
  simp [cacheableColumnarQuery]

section Fresh

variable {C : Partition → Step → Prop} {spec : NormalSpec} {F : Type} {n : FloatText F}
  {env : ReadEnv}
  {query : Query} {sorted : List RecordEntry} {fields : List String} {pkColumn : String}
    {fence : Fence}

/-- What a table is built from when the whole scope is asked for. -/
theorem collect_all (h : Reach C spec p) (horg : trimSpace query.organizationID ≠ "")
    (hcache : cacheableColumnarQuery query = true) (ha : p.Answers env.now query sorted) :
    ∃ kept, Returns env.ctxDone (p.collectRecordEntries env (normalizeQuery query)) kept ∧
      sortAndLimitEntries kept (normalizeQuery query) = sorted := by
  obtain ⟨hlimit, hcount⟩ := cacheable_iff.mp hcache
  obtain ⟨kept, hret, hsort⟩ :=
    collect_returns h horg env ha (bitmapCandidates_unused (.inl (by omega)))
  rw [hlimit, limited, if_neg (lt_irrefl 0)] at hsort
  exact ⟨kept, hret, hsort⟩

theorem build_eq (hfence : fence.minEpoch ≤ p.epoch) (horg : trimSpace query.organizationID ≠ "") :
    p.buildColumnarTable n env query fields pkColumn fence = (do
      let entries ← (p.collectRecordEntries env (normalizeQuery query)).mapError TableError.hermes
      tableOf n fields pkColumn (sortAndLimitEntries entries (normalizeQuery query))) := by
  have hfence' : p.checkFence fence = .ok () := if_neg (not_lt.mpr hfence)
  have horg' : ¬ (normalizeQuery query).organizationID = "" := horg
  unfold buildColumnarTable getColumnarBatch tableOf
  rw [hfence']
  dsimp only [bind, Except.bind, Except.mapError]
  rw [if_neg horg']
  cases p.collectRecordEntries env (normalizeQuery query) <;> rfl

theorem build_guards {table : ColumnarTable F}
    (hb : p.buildColumnarTable n env query fields pkColumn fence = .ok table) :
    fence.minEpoch ≤ p.epoch ∧ trimSpace query.organizationID ≠ "" := by
  obtain ⟨batch, hbatch, -⟩ := except_bind_eq_ok hb
  obtain ⟨u, hfence, hrest⟩ := except_bind_eq_ok hbatch
  constructor
  · by_contra hlt
    rw [checkFence, if_pos (not_le.mp hlt)] at hfence
    cases hfence
  · intro horg
    have horg' : (normalizeQuery query).organizationID = "" := horg
    dsimp only at hrest
    rw [if_pos horg'] at hrest
    cases hrest

theorem build_ok (h : Reach C spec p) (hcache : cacheableColumnarQuery query = true)
    (ha : p.Answers env.now query sorted) {table : ColumnarTable F}
    (hb : p.buildColumnarTable n env query fields pkColumn fence = .ok table) :
    tableOf n fields pkColumn sorted = .ok table := by
  obtain ⟨hfence, horg⟩ := build_guards hb
  obtain ⟨kept, hret, hsort⟩ := collect_all h horg hcache ha
  rw [build_eq hfence horg] at hb
  rcases hret with hret | ⟨hret, -⟩
  · rw [hret] at hb
    exact hsort ▸ hb
  · rw [hret] at hb
    cases hb

theorem build_returns (h : Reach C spec p) (hfence : fence.minEpoch ≤ p.epoch)
    (horg : trimSpace query.organizationID ≠ "") (hcache : cacheableColumnarQuery query = true)
    (ha : p.Answers env.now query sorted) (hctx : ∀ i, env.ctxDone i = false) :
    p.buildColumnarTable n env query fields pkColumn fence = tableOf n fields pkColumn sorted := by
  obtain ⟨kept, hret, hsort⟩ := collect_all h horg hcache ha
  rw [build_eq hfence horg]
  rcases hret with hret | ⟨-, i, hi⟩
  · rw [hret, ← hsort]
    rfl
  · rw [hctx i] at hi
    cases hi

end Fresh

end Partition

/-! ### Keys -/

/-- Field names that the key of a table keeps apart: none has a zero byte, and the list is not
the single empty name. -/
def PlainFields (fields : List String) : Prop := (∀ f ∈ fields, '\x00' ∉ f.toList) ∧ fields ≠ [""]

theorem intercalate_zero_inj {a b : List String} (ha : ∀ f ∈ a, '\x00' ∉ f.toList)
    (hb : ∀ f ∈ b, '\x00' ∉ f.toList) (hne : a ≠ []) (hne' : b ≠ [])
    (h : "\x00".intercalate a = "\x00".intercalate b) : a = b := by
  have hl := congrArg String.toList h
  have hsep : "\x00".toList = ['\x00'] := by decide
  rw [String.toList_intercalate, String.toList_intercalate, hsep] at hl
  have hmap : a.map String.toList = b.map String.toList :=
    intercalate_sep_inj (by simpa using hne) (by simpa using hne') (by simpa using ha)
      (by simpa using hb) hl
  exact List.map_injective_iff.mpr (fun _ _ => String.toList_inj.mp) hmap

theorem key_fields_inj {org pk : String} {a b : List String} (ha : PlainFields a)
    (hb : PlainFields b) (h : newSealedColumnarKey org a pk = newSealedColumnarKey org b pk) :
    a = b := by
  have hf := congrArg SealedColumnarKey.fields h
  have hempty : ∀ l, PlainFields l → l ≠ [] → "\x00".intercalate l ≠ "" := by
    intro l hl hne heq
    exact hl.2 (intercalate_zero_inj hl.1 (by simp) hne (by simp) (heq.trans (by decide)))
  unfold newSealedColumnarKey at hf
  dsimp only at hf
  by_cases hae : a = []
  · by_cases hbe : b = []
    · rw [hae, hbe]
    · rw [if_neg (by simp [hae]), if_pos (List.length_pos_of_ne_nil hbe)] at hf
      exact absurd hf.symm (hempty b hb hbe)
  · rw [if_pos (List.length_pos_of_ne_nil hae)] at hf
    by_cases hbe : b = []
    · rw [if_neg (by simp [hbe])] at hf
      exact absurd hf (hempty a ha hae)
    · rw [if_pos (List.length_pos_of_ne_nil hbe)] at hf
      exact intercalate_zero_inj ha.1 hb.1 hae hbe hf

/-! ### Runs -/

namespace SealedPartition

variable {F : Type} {n : FloatText F}

/-- A step that keeps the sealed tables true: a write sweeps no expired record while a table of
the current epoch is sealed, and a seal has plain field names and finds no expired record in its
organization. -/
def Steady (q : SealedPartition F) : SealedStep → Prop
  | .write step => (∀ key ent, q.sealedColumnar.lookup key = some ent → ent.epoch ≠ q.part.epoch) ∨
      step.SweepsNothing q.part
  | .seal _ env query fields _ _ =>
      PlainFields fields ∧ q.part.UnexpiredIn (trimSpace query.organizationID) env.now

/-- A table holds the records of its organization in the shape its key names. -/
def Describes (n : FloatText F) (q : SealedPartition F) (key : SealedColumnarKey)
    (table : ColumnarTable F) : Prop :=
  ∃ fields sorted, PlainFields fields ∧ key = newSealedColumnarKey key.org fields key.pk ∧
    q.part.Holds key.org sorted ∧
      tableOf n (q.columnarShape fields key.pk).1 (q.columnarShape fields key.pk).2
        sorted = .ok table

/-- Tables are labelled with past epochs, and those of the current one are true. The key without
a primary key serves whatever was sealed last. -/
structure Current (n : FloatText F) (q : SealedPartition F) : Prop where
  label : ∀ key ent, q.sealedColumnar.lookup key = some ent → ent.epoch ≤ q.part.epoch
  describes : ∀ key ent, q.sealedColumnar.lookup key = some ent → ent.epoch = q.part.epoch →
    key.pk ≠ "" →
    q.Describes n key ent.table

theorem withSealed_lookup {q : SealedPartition F} {key k : SealedColumnarKey}
    {entry ent : SealedColumnarEntry F} (h : (q.withSealed key entry).lookup k = some ent) :
    (k = key ∨ k.pk = "") ∧ ent = entry ∨ q.sealedColumnar.lookup k = some ent := by
  have hkept : ∀ ent, (if q.sealedColumnar.keys.card < maxSealedColumnarTables then q.sealedColumnar
      else ∅).lookup k = some ent → q.sealedColumnar.lookup k = some ent := by
    intro ent hl
    split_ifs at hl
    · exact hl
    · rw [Finmap.lookup_empty] at hl
      cases hl
  unfold withSealed at h
  dsimp only at h
  generalize (if q.sealedColumnar.keys.card < maxSealedColumnarTables then q.sealedColumnar
    else ∅) = m at h hkept
  have hinsert : (m.insert key entry).lookup k = some ent →
      (k = key ∨ k.pk = "") ∧ ent = entry ∨ q.sealedColumnar.lookup k = some ent := by
    intro hl
    rw [GoMap.lookup_insert_if] at hl
    split_ifs at hl with hk
    · exact .inl ⟨.inl hk, (Option.some.inj hl).symm⟩
    · exact .inr (hkept ent hl)
  split_ifs at h
  · rw [GoMap.lookup_insert_if] at h
    by_cases hk : k = ⟨key.org, "", ""⟩
    · rw [if_pos hk] at h
      exact .inl ⟨.inr (by rw [hk]), (Option.some.inj h).symm⟩
    · rw [if_neg hk] at h
      exact hinsert h
  · exact hinsert h

theorem Current.write {q : SealedPartition F} (h : q.Current n) (hk : q.part.idle.Keyed)
    (step : Partition.Step) (hs : q.Steady (.write step)) :
    ({ q with part := q.part.exec step } : SealedPartition F).Current n := by
  rcases Partition.exec_kept hk step with hlt | ⟨heq, hkept⟩
  · refine ⟨fun key ent hl => (h.label key ent hl).trans hlt.le, fun key ent hl he => ?_⟩
    exact absurd he (ne_of_lt (lt_of_le_of_lt (h.label key ent hl) hlt))
  · refine ⟨fun key ent hl => heq.symm ▸ h.label key ent hl, fun key ent hl he hpk => ?_⟩
    have hepoch : ent.epoch = q.part.epoch := he.trans heq
    rcases hs with hnone | hsweeps
    · exact absurd hepoch (hnone key ent hl)
    · obtain ⟨fields, sorted, hplain, hkey, hholds, htable⟩ := h.describes key ent hl hepoch hpk
      exact ⟨fields, sorted, hplain, hkey, hholds.congr (hkept hsweeps), htable⟩

theorem describes_built {C : Partition → Partition.Step → Prop} {spec : NormalSpec}
    {q : SealedPartition F} (h : Partition.Reach C spec q.part) {env : ReadEnv} {query : Query}
    {fields : List String} {pkColumn : String} {fence : Fence} {table : ColumnarTable F}
    (hplain : PlainFields fields)
    (hun : q.part.UnexpiredIn (trimSpace query.organizationID) env.now)
    (hcache : cacheableColumnarQuery query = true)
    (hb : q.part.buildColumnarTable n env query (q.columnarShape fields pkColumn).1
      (q.columnarShape fields pkColumn).2 fence = .ok table) :
    q.Describes n (newSealedColumnarKey (normalizeQuery query).organizationID fields pkColumn)
      table := by
  obtain ⟨-, horg⟩ := Partition.build_guards hb
  obtain ⟨sorted, ha⟩ := Partition.exists_answers h horg env.now env.order
  have hholds := (Partition.answers_iff_holds (Partition.cacheable_iff.mp hcache).2 hun).mp ha
  exact ⟨fields, sorted, hplain, rfl, hholds, Partition.build_ok h hcache ha hb⟩

theorem Current.store {q : SealedPartition F} (h : q.Current n) {key : SealedColumnarKey}
    {table : ColumnarTable F} {epoch : ℕ} (hepoch : epoch ≤ q.part.epoch)
    (hd : q.Describes n key table) :
    (q.storeSealedColumnar key ⟨table, epoch⟩).Current n := by
  unfold storeSealedColumnar
  split_ifs
  · exact h
  · constructor
    · intro k ent hl
      rcases withSealed_lookup hl with ⟨-, rfl⟩ | hl
      · exact hepoch
      · exact h.label k ent hl
    · intro k ent hl he hpk
      rcases withSealed_lookup hl with ⟨rfl | hdefault, rfl⟩ | hl
      · exact hd
      · exact absurd hdefault hpk
      · exact h.describes k ent hl he hpk

theorem Current.seal {C : Partition → Partition.Step → Prop} {spec : NormalSpec}
    {q : SealedPartition F} (h : q.Current n) (hr : Partition.Reach C spec q.part) {epoch : ℕ}
    (hepoch : epoch ≤ q.part.epoch) {env : ReadEnv} {query : Query} {fields : List String}
    {pkColumn : String} {fence : Fence} (hplain : PlainFields fields)
    (hun : q.part.UnexpiredIn (trimSpace query.organizationID) env.now) :
    (q.sealColumnar n epoch env query fields pkColumn fence).2.Current n := by
  unfold sealColumnar
  dsimp only
  cases hb : q.part.buildColumnarTable n env query (q.columnarShape fields pkColumn).1
      (q.columnarShape fields pkColumn).2 fence with
  | error e => exact h
  | ok table =>
    dsimp only
    split_ifs with hcache
    · exact h.store hepoch (describes_built hr hplain hun hcache hb)
    · exact h

theorem sealColumnar_part (q : SealedPartition F) (epoch : ℕ) (env : ReadEnv) (query : Query)
    (fields : List String) (pkColumn : String) (fence : Fence) :
    (q.sealColumnar n epoch env query fields pkColumn fence).2.part = q.part := by
  unfold sealColumnar storeSealedColumnar
  dsimp only
  split
  · rfl
  · split_ifs <;> rfl

end SealedPartition

namespace SealedReach

variable {F : Type} {n : FloatText F} {spec : NormalSpec} {columnarFields : List String}
  {columnarPK : String}
  {q : SealedPartition F}

theorem part {C : SealedPartition F → SealedStep → Prop}
    (h : SealedReach n C spec columnarFields columnarPK q) :
    Partition.Reach Partition.Step.Any spec q.part := by
  induction h with
  | start => exact .start
  | @step q s _ _ ih =>
    cases s with
    | write step => exact ih.step step trivial
    | «seal» epoch env query fields pkColumn fence =>
      change Partition.Reach _ _ (q.sealColumnar n _ env query fields pkColumn fence).2.part
      rw [SealedPartition.sealColumnar_part]
      exact ih

theorem current (h : SealedReach n SealedPartition.Steady spec columnarFields columnarPK q) :
    q.Current n := by
  induction h with
  | start =>
    constructor
    · intro key ent hl
      cases hl
    · intro key ent hl
      cases hl
  | @step q s hq hs ih =>
    cases s with
    | write step => exact ih.write hq.part.keyed.1 step hs
    | «seal» epoch env query fields pkColumn fence =>
      exact ih.seal hq.part (min_le_right _ _) hs.1 hs.2

/-- The tables of the current epoch are what their explicit shape asks for. -/
theorem sealedAnswer_describes (h : q.Current n) {query : Query} {fields : List String}
    {pkColumn : String} (hfields : fields ≠ []) (hpk : pkColumn ≠ "") (hplain : PlainFields fields)
    {table : ColumnarTable F}
    (hanswer : q.sealedAnswer (normalizeQuery query) fields pkColumn = some table) :
    cacheableColumnarQuery query = true ∧ ∃ sorted,
      q.part.Holds (trimSpace query.organizationID) sorted ∧
      tableOf n fields pkColumn sorted = .ok table := by
  unfold SealedPartition.sealedAnswer at hanswer
  split_ifs at hanswer with hcache
  refine ⟨hcache, ?_⟩
  unfold SealedPartition.loadSealedColumnar at hanswer
  cases hl : q.sealedColumnar.lookup
      (newSealedColumnarKey (normalizeQuery query).organizationID fields pkColumn) with
  | none => rw [hl] at hanswer; cases hanswer
  | some ent =>
    rw [hl] at hanswer
    dsimp only at hanswer
    split_ifs at hanswer with hepoch
    obtain rfl := Option.some.inj hanswer
    obtain ⟨fields', sorted, hplain', hkey, hholds, htable⟩ :=
      h.describes _ ent hl (not_not.mp hepoch) hpk
    obtain rfl := key_fields_inj hplain hplain' hkey
    have hshape : q.columnarShape fields pkColumn = (fields, pkColumn) := by
      simp [SealedPartition.columnarShape, hfields, hpk]
    refine ⟨sorted, hholds, ?_⟩
    change tableOf n (q.columnarShape fields pkColumn).1 (q.columnarShape fields pkColumn).2
      sorted = _ at htable
    rwa [hshape] at htable

/-- In every run of steady steps, a table that is answered from the cache, for plain explicit
fields and over records none of which has expired, is the one that is built afresh. -/
theorem sealed_table_fresh
    (h : SealedReach n SealedPartition.Steady spec columnarFields columnarPK q) (env : ReadEnv)
    (query : Query) (fields : List String) (pkColumn : String) (fence : Fence)
    (hfields : fields ≠ []) (hpk : pkColumn ≠ "") (hplain : PlainFields fields)
    (hun : q.part.UnexpiredIn (trimSpace query.organizationID) env.now)
    (hfence : fence.minEpoch ≤ q.part.epoch) (horg : trimSpace query.organizationID ≠ "")
    {table : ColumnarTable F}
    (hanswer : q.sealedAnswer (normalizeQuery query) fields pkColumn = some table) :
    q.getColumnarTable n env query fields pkColumn fence = (.ok table, q) ∧
    (∀ fresh, q.part.buildColumnarTable n env query fields pkColumn fence = .ok fresh →
      fresh = table) ∧
    ((∀ i, env.ctxDone i = false) →
      q.part.buildColumnarTable n env query fields pkColumn fence = .ok table) := by
  obtain ⟨hcache, sorted, hholds, htable⟩ :=
    sealedAnswer_describes h.current hfields hpk hplain hanswer
  have ha := (Partition.answers_iff_holds (Partition.cacheable_iff.mp hcache).2 hun).mpr hholds
  refine ⟨?_, fun fresh hb => ?_, fun hctx => ?_⟩
  · have hfence' : q.part.checkFence fence = .ok () := if_neg (not_lt.mpr hfence)
    have horg' : ¬ (normalizeQuery query).organizationID = "" := horg
    unfold SealedPartition.getColumnarTable
    rw [hfence']
    dsimp only
    rw [if_neg horg', hanswer]
  · have hfresh := Partition.build_ok h.part hcache ha hb
    exact Except.ok.inj (hfresh.symm.trans htable)
  · rw [Partition.build_returns h.part hfence horg hcache ha hctx, htable]

end SealedReach

/-! ### On concrete input -/

def leasedSpec : NormalSpec := { ordersSpec with ttl := 5 }

def acmeOrders : Query := { organizationID := "acme" }

def writtenOrders : SealedPartition ℤ :=
  SealedPartition.exec wholeFloats ⟨newPartition leasedSpec, [], "", ∅⟩
    (.write (.applyBatch (.steady 1) [⟨.upsert, "", 1, order "a" "open"⟩]))

def sealedOrders (fields : List String) : SealedPartition ℤ :=
  writtenOrders.exec wholeFloats (.seal 1 (.steady 2) acmeOrders fields "record_id" {})

def rowsOf (result : Except TableError (ColumnarTable ℤ)) : Option (ℕ × List String) :=
  result.toOption.map fun t => (t.batch.rows, t.batch.columns.map (·.name))

/-- The sealed table still has the order after it has expired. And a field whose name is the join
of two others is answered with the table of the two, though no such column can be built. -/
theorem expired_order_still_sealed :
    rowsOf ((sealedOrders ["record_id"]).getColumnarTable wholeFloats (.steady 20) acmeOrders
      ["record_id"]
      "record_id" {}).1 = some (1, ["record_id"]) ∧
    rowsOf ((sealedOrders ["record_id"]).part.buildColumnarTable wholeFloats (.steady 20) acmeOrders
      ["record_id"]
      "record_id" {}) = some (0, ["record_id"]) ∧
    rowsOf ((sealedOrders ["state", "record_id"]).getColumnarTable wholeFloats
      (.steady 2) acmeOrders
      ["state\x00record_id"] "record_id" {}).1 = some (1, ["state", "record_id"]) ∧
    rowsOf ((sealedOrders ["state", "record_id"]).part.buildColumnarTable wholeFloats
      (.steady 2) acmeOrders
      ["state\x00record_id"] "record_id" {}) = none := by
  decide +kernel

theorem unexpiredIn_of_keys {p : Partition} {org : String} {now : Time}
    (h : ∀ key ∈ p.registry.records.keys,
      (p.registry.records.lookup key).all (fun e => !Progress.expired now e)) :
    p.UnexpiredIn org now := by
  intro key e he _
  have hkey := h key ((GoMap.mem_keys_iff _ _).mpr ⟨e, he⟩)
  have he' : p.registry.records.lookup key = some e := he
  rw [he'] at hkey
  simpa using hkey

/-- Before it expires the sealed order is the fresh one. -/
theorem sealed_order_fresh :
    ∃ table, (sealedOrders ["record_id"]).sealedAnswer acmeOrders ["record_id"] "record_id" =
    some table ∧ (sealedOrders ["record_id"]).part.buildColumnarTable wholeFloats (.steady 3)
      acmeOrders ["record_id"]
      "record_id" {} = .ok table := by
  have hplain : PlainFields ["record_id"] := ⟨by decide, by decide⟩
  have hreach : SealedReach wholeFloats SealedPartition.Steady leasedSpec [] ""
      (sealedOrders ["record_id"]) := by
    refine .step _ (.step _ .start (.inl fun key ent hl => by cases hl)) ⟨hplain,
      unexpiredIn_of_keys ?_⟩
    decide +kernel
  have hsome : ((sealedOrders ["record_id"]).sealedAnswer (normalizeQuery acmeOrders) ["record_id"]
      "record_id").isSome = true := by
    decide +kernel
  obtain ⟨table, htable⟩ := Option.isSome_iff_exists.mp hsome
  obtain ⟨-, -, hfresh⟩ :=
    hreach.sealed_table_fresh (.steady 3) acmeOrders ["record_id"] "record_id" {}
    (by decide) (by decide) hplain (unexpiredIn_of_keys (by decide +kernel)) (Nat.zero_le _)
      (by decide) htable
  exact ⟨table, htable, hfresh fun _ => rfl⟩

end Foundation.Hermes
