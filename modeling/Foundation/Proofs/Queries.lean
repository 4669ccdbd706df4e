import Foundation.Sanity.Queries

/-! Counts and lists answer the query. Whichever index the candidates are taken from, and
whether they are walked in order or selected by a bounded heap, the result is the beginning of
the selected records in canonical order. -/

namespace Foundation.Hermes

open Go IndexSnapshot BoundedHeap

namespace Partition

/-- A limit of zero or less is no limit. -/
def capped (limit count : ℤ) : ℤ := if limit ≤ 0 then count else min limit count

def limited {α : Type} (limit : ℤ) (l : List α) : List α :=
  if 0 < limit then l.take limit.toNat else l

/-- A read that returns `a`, unless its context is done on the way. -/
def Returns {α : Type} (ctxDone : ℕ → Bool) (result : Except HermesError α) (a : α) : Prop :=
  result = .ok a ∨ result = .error .contextDone ∧ ∃ i, ctxDone i = true

/-! ### Scans -/

theorem countScan_returns (ctxDone : ℕ → Bool) (found : String → Bool) (limit : ℤ)
    (keys : List String) (i : ℕ) (count : ℤ) (h : limit ≤ 0 ∨ count < limit) :
    Returns ctxDone (countScan ctxDone found limit i count keys)
      (capped limit (count + (keys.filter found).length)) := by
  induction keys generalizing i count with
  | nil =>
    refine .inl (congrArg Except.ok ?_)
    unfold capped
    rw [List.filter_nil, List.length_nil]
    split_ifs with hl
    · simp
    · omega
  | cons key rest ih =>
    unfold countScan
    cases hf : found key with
    | false =>
      rw [List.filter_cons_of_neg (by rw [hf]; decide)]
      exact ih i count h
    | true =>
      rw [List.filter_cons_of_pos hf, List.length_cons, Nat.cast_succ]
      cases hctx : ctxDone i with
      | true => exact .inr ⟨rfl, i, hctx⟩
      | false =>
        simp only [if_true, Bool.false_eq_true, if_false]
        split_ifs with hgo
        · have hsum : count + (((rest.filter found).length : ℤ) + 1) = count + 1 +
              (rest.filter found).length := by omega
          rw [hsum]
          exact ih (i + 1) (count + 1) hgo
        · refine .inl (congrArg Except.ok ?_)
          rw [not_or, not_le, not_lt] at hgo
          rw [capped, if_neg (not_le.mpr hgo.1)]
          omega

theorem collectScan_returns (ctxDone : ℕ → Bool) (limit : ℤ)
    (candidates : List (Option RecordEntry)) (i : ℕ) (entries : List RecordEntry) :
    Returns ctxDone (collectScan ctxDone limit i entries candidates)
      ((candidates.filterMap id).foldl (add compareColumnarEntries limit) entries) := by
  induction candidates generalizing i entries with
  | nil => exact .inl rfl
  | cons candidate rest ih =>
    unfold collectScan
    cases hctx : ctxDone i with
    | true => exact .inr ⟨rfl, i, hctx⟩
    | false =>
      cases candidate with
      | none => exact ih (i + 1) entries
      | some entry => exact ih (i + 1) _

theorem add_length {limit : ℤ} {entries : List RecordEntry} (h : (entries.length : ℤ) < limit)
    (entry : RecordEntry) :
    (add compareColumnarEntries limit entries entry).length = entries.length + 1 := by
  unfold BoundedHeap.add
  rw [if_neg (by omega), if_pos h, (siftUp_perm _ _ _ _).length_eq, List.length_append,
    List.length_singleton]

/-- The ordered walk takes as many matching entries as fit. -/
theorem collectOrdered_returns (ctxDone : ℕ → Bool) (limit : ℤ)
    (candidates : List (Option RecordEntry)) (i : ℕ) (entries : List RecordEntry)
    (h : (entries.length : ℤ) ≤ limit) :
    Returns ctxDone (collectOrdered ctxDone limit i entries candidates)
      (((candidates.filterMap id).take (limit.toNat - entries.length)).foldl
        (add compareColumnarEntries limit)
        entries) := by
  induction candidates generalizing i entries with
  | nil =>
    rw [List.filterMap_nil, List.take_nil]
    exact .inl rfl
  | cons candidate rest ih =>
    unfold collectOrdered
    split_ifs with hfull hctx
    · have hzero : limit.toNat - entries.length = 0 := by omega
      rw [hzero, List.take_zero]
      exact .inl rfl
    · exact .inr ⟨rfl, i, hctx⟩
    · cases candidate with
      | none => exact ih (i + 1) entries h
      | some entry =>
        have hlen := add_length (not_le.mp hfull) entry
        have hroom : limit.toNat - entries.length =
            (limit.toNat - (add compareColumnarEntries limit entries entry).length) + 1 := by omega
        rw [List.filterMap_cons, id_eq]
        dsimp only
        rw [hroom, List.take_succ_cons, List.foldl_cons]
        exact ih (i + 1) _ (by omega)

/-! ### The selected records -/

variable {sorted : List RecordEntry}

section

variable {C : Partition → Step → Prop} {spec : NormalSpec} {p : Partition} {now : Time}
  {query : Query}

theorem selected_distinct (hk : p.idle.Keyed) {e e' : RecordEntry} (h : p.Selected now query e)
    (h' : p.Selected now query e') (hne : keyOf e.record ≠ keyOf e'.record) :
    compareColumnarEntries e e' ≠ .eq := by
  intro heq
  unfold compareColumnarEntries at heq
  simp only [Ordering.then_eq_eq, compare_eq_iff_eq] at heq
  refine hne ?_
  unfold keyOf
  rw [hk.domain_eq _ _ h.live, hk.domain_eq _ _ h'.live, hk.collection_eq _ _ h.live,
    hk.collection_eq _ _ h'.live,
    h.organization, h'.organization, heq.2]

theorem compareColumnarEntries_self (e : RecordEntry) : compareColumnarEntries e e = .eq :=
  Std.ReflCmp.compare_self

theorem Answers.strict (h : p.Answers now query sorted) :
    sorted.Pairwise fun a b => compareColumnarEntries a b = .lt :=
  h.sorted.imp fun hab => (compareColumnarEntries_lt _ _).mpr hab

theorem Answers.nodup (h : p.Answers now query sorted) : sorted.Nodup :=
  h.strict.imp fun {a b} hlt heq => by
    rw [heq, compareColumnarEntries_self] at hlt
    cases hlt

theorem Answers.perm {sorted l : List RecordEntry} (h : p.Answers now query sorted)
    (hmem : ∀ e, e ∈ l ↔ p.Selected now query e) (hnodup : l.Nodup) : sorted.Perm l :=
  (List.perm_ext_iff_of_nodup h.nodup hnodup).mpr fun e => (h.mem_iff e).trans (hmem e).symm

theorem Answers.unique {sorted sorted' : List RecordEntry} (h : p.Answers now query sorted)
    (h' : p.Answers now query sorted') : sorted = sorted' :=
  List.Perm.eq_of_pairwise (fun a b _ _ hab hba => by
    rw [Std.OrientedCmp.gt_iff_lt.mpr hba] at hab
    cases hab) h.strict h'.strict (h.perm h'.mem_iff h'.nodup)

def scanned (p : Partition) (now : Time) (query : Query) (o : RangeOrder String) :
    List RecordEntry :=
  (forEachKey o (p.candidateIndex (normalizeQuery query))).filterMap
    (p.matching now (normalizeQuery query))

variable (h : Reach C spec p) (horg : trimSpace query.organizationID ≠ "") (o : RangeOrder String)

include h horg in
theorem mem_scanned (e : RecordEntry) : e ∈ p.scanned now query o ↔ p.Selected now query e := by
  rw [scanned, List.mem_filterMap]
  constructor
  · rintro ⟨key, -, hm⟩
    exact ((matching_iff h.keyed.1 horg).mp hm).2
  · intro hs
    exact ⟨_, h.candidateIndex.key_mem o e hs, (matching_iff h.keyed.1 horg).mpr ⟨rfl, hs⟩⟩

include h horg in
theorem scanned_distinct :
    (p.scanned now query o).Pairwise fun e e' => keyOf e.record ≠ keyOf e'.record := by
  refine List.Pairwise.filterMap _ (fun key key' hne e he e' he' => ?_) (forEachKey_nodup o _)
  rw [← ((matching_iff h.keyed.1 horg).mp he).1, ← ((matching_iff h.keyed.1 horg).mp he').1]
  exact hne

include h horg in
theorem scanned_nodup : (p.scanned now query o).Nodup :=
  (scanned_distinct h horg o).imp fun hne heq => hne (by rw [heq])

include h horg in
theorem exists_answers (now : Time) (o : RangeOrder String) :
    ∃ sorted, p.Answers now query sorted := by
  refine ⟨(p.scanned now query o).insertionSort fun a b => compareColumnarEntries a b ≠ .gt,
    fun e => ?_, ?_⟩
  · rw [List.mem_insertionSort, mem_scanned h horg]
  · refine (sort_strict ?_).imp fun hlt => (compareColumnarEntries_lt _ _).mp hlt
    refine (scanned_distinct h horg o).imp_of_mem fun he he' hne => ?_
    exact selected_distinct h.keyed.1 ((mem_scanned h horg o _).mp he)
      ((mem_scanned h horg o _).mp he') hne

/-! ### The ordered walk -/

def walked (p : Partition) (now : Time) (query : Query) : List RecordEntry :=
  (forEachOrderDesc (p.candidateIndex (normalizeQuery query))).filterMap fun x =>
    (p.recordForOrderEntry now x).filter fun entry =>
      recordMatches entry.record p.spec.toProjectionSpec (normalizeQuery query)

include h horg in
theorem answers_walked (hordered : p.registry.columnarUnordered = false) :
    p.Answers now query (p.walked now query) := by
  have hc := h.ordered hordered
  constructor
  · intro e
    rw [walked, List.mem_filterMap]
    constructor
    · rintro ⟨x, -, hx⟩
      exact ((orderMatching_iff h.keyed.1 horg).mp hx).2
    · intro hs
      exact ⟨_, h.candidateIndex.order_mem e hs, (orderMatching_iff h.keyed.1 horg).mpr ⟨rfl, hs⟩⟩
  · have hcandidate : p.Candidate now query (p.candidateIndex (normalizeQuery query)) :=
      h.candidateIndex
    obtain ⟨cell, hsub⟩ := hcandidate.listed
    refine List.Pairwise.filterMap _ (fun x y hxy e he e' he' => ?_)
      ((hc.descending cell).sublist hsub)
    obtain ⟨rfl, hs⟩ := (orderMatching_iff h.keyed.1 horg).mp he
    obtain ⟨rfl, hs'⟩ := (orderMatching_iff h.keyed.1 horg).mp he'
    have hver : e'.version < e.version := hxy ⟨e', hs'.live, rfl⟩
    rcases (hc.newer _ _ e' e hs'.live hs.live hver).lt_or_eq with hlt | heq
    · exact .inl hlt
    · exact .inr ⟨heq.symm, .inl hver⟩

/-! ### Counts and lists -/

theorem bitmapCandidates_unused (hplan : query.plan.count ≤ 1 ∨ ∃ filter ∈ query.plan.planned,
    filter.field ∉ p.spec.indexedFields) :
    p.bitmapCandidates (normalizeQuery query) = ([], false) := by
  unfold bitmapCandidates
  rcases hplan with hcount | ⟨filter, hf, hn⟩
  · exact if_pos hcount
  · split_ifs with _ hall
    · rfl
    · rfl
    · rw [not_or, not_not] at hall
      have hin := List.all_eq_true.mp hall.1 filter hf
      exact absurd (List.contains_iff_mem.mp hin) hn

theorem sortAndLimit_eq {kept l : List RecordEntry} {q : Query}
    (hsort : kept.insertionSort (fun a b => compareColumnarEntries a b ≠ .gt) = limited q.limit l) :
    sortAndLimitEntries kept q = limited q.limit l := by
  unfold sortAndLimitEntries
  dsimp only
  rw [hsort]
  refine if_neg fun hlong => ?_
  rw [limited, if_pos hlong.1, List.length_take] at hlong
  omega

include h horg in
theorem collect_returns (env : ReadEnv) (ha : p.Answers env.now query sorted)
    (hbitmap : p.bitmapCandidates (normalizeQuery query) = ([], false)) :
    ∃ kept, Returns env.ctxDone (p.collectRecordEntries env (normalizeQuery query)) kept ∧
      sortAndLimitEntries kept (normalizeQuery query) = limited query.limit sorted := by
  unfold collectRecordEntries
  split_ifs with hfast
  · have hwalk : p.Answers env.now query (p.walked env.now query) := answers_walked h horg hfast.2
    obtain rfl := hwalk.unique ha
    have hret := collectOrdered_returns env.ctxDone query.limit ((forEachOrderDesc (p.candidateIndex
      (normalizeQuery query))).map fun order =>
        (p.recordForOrderEntry env.now order).filter fun entry =>
        recordMatches entry.record p.spec.toProjectionSpec (normalizeQuery query)) 1 [] hfast.1.le
    rw [List.filterMap_map, Function.id_comp] at hret
    refine ⟨_, hret, sortAndLimit_eq ?_⟩
    have hsort :=
      (selects_foldl query.limit ((p.walked env.now query).take query.limit.toNat)).sort_eq
      (.refl _)
      (ha.strict.sublist (List.take_sublist _ _))
    have hpos : 0 < query.limit := hfast.1
    rw [if_pos hpos, List.take_take, min_self] at hsort
    rw [limited, if_pos hfast.1]
    exact hsort
  · rw [hbitmap]
    have hret :=
      collectScan_returns env.ctxDone query.limit ((forEachKey env.order (p.candidateIndex
      (normalizeQuery query))).map (p.matching env.now (normalizeQuery query))) 1 []
    rw [List.filterMap_map, Function.id_comp] at hret
    refine ⟨_, hret, sortAndLimit_eq ?_⟩
    exact (selects_foldl query.limit (p.scanned env.now query env.order)).sort_eq
      (ha.perm (mem_scanned h horg env.order) (scanned_nodup h horg env.order)) ha.strict

theorem Returns.map {α β : Type} {ctxDone : ℕ → Bool} {result : Except HermesError α} {a : α}
    (h : Returns ctxDone result a) (f : α → β) :
    Returns ctxDone (result >>= fun x => pure (f x)) (f a) := by
  rcases h with h | ⟨h, hi⟩
  · rw [h]
    exact .inl rfl
  · rw [h]
    exact .inr ⟨rfl, hi⟩

end

/-- In every reachable partition a query that cannot use the bitmaps counts the selected
records up to its limit, and lists the first of them in canonical order. -/
theorem queries_answered {C : Partition → Step → Prop} {spec : NormalSpec} {p : Partition}
    {query : Query} {fence : Fence} (h : Reach C spec p)
    (horg : trimSpace query.organizationID ≠ "") (hfence : fence.minEpoch ≤ p.epoch)
    (hplan : query.plan.count ≤ 1 ∨ ∃ filter ∈ query.plan.planned,
      filter.field ∉ spec.indexedFields) (env : ReadEnv) :
    ∃ sorted, p.Answers env.now query sorted ∧
      Returns env.ctxDone (p.count env query fence) (capped query.limit sorted.length) ∧
      Returns env.ctxDone (p.listRecords env query fence)
        ((limited query.limit sorted).map (·.record)) := by
  obtain rfl := h.keyed.2
  have hbitmap := bitmapCandidates_unused hplan
  have hfence' : p.checkFence fence = .ok () := if_neg (not_lt.mpr hfence)
  have horg' : ¬ (normalizeQuery query).organizationID = "" := horg
  obtain ⟨sorted, ha⟩ := exists_answers h horg env.now env.order
  refine ⟨sorted, ha, ?_, ?_⟩
  · have hlen : ((forEachKey env.order (p.candidateIndex (normalizeQuery query))).filter fun key =>
        (p.matching env.now (normalizeQuery query) key).isSome).length = sorted.length := by
      rw [(ha.perm (mem_scanned h horg env.order) (scanned_nodup h horg env.order)).length_eq,
        scanned,
        List.length_filterMap_eq_countP, List.countP_eq_length_filter]
    have hret :=
      countScan_returns env.ctxDone
      (fun key => (p.matching env.now (normalizeQuery query) key).isSome)
      query.limit (forEachKey env.order (p.candidateIndex (normalizeQuery query))) 1 0 (by omega)
    rw [hlen, zero_add] at hret
    unfold count
    rw [hfence']
    dsimp only [bind, Except.bind]
    rw [if_neg horg', hbitmap]
    exact hret
  · obtain ⟨kept, hret, hsort⟩ := collect_returns h horg env ha hbitmap
    unfold listRecords
    rw [hfence']
    dsimp only [bind, Except.bind]
    rw [if_neg horg', ← hsort]
    exact hret.map fun kept => (sortAndLimitEntries kept (normalizeQuery query)).map (·.record)

/-! ### On concrete input -/

def orderPair : Partition := (newPartition ordersSpec).execAll [.applyBatch (.steady 1)
  [⟨.upsert, "", 1, order "a" "open"⟩, ⟨.upsert, "", 2, order "b" "open"⟩]]

def newestOrder : Query := { organizationID := "acme", limit := 1 }

/-- Of two orders the newer one is listed. -/
theorem newest_of_two_orders : ∃ sorted, orderPair.Answers 2 newestOrder sorted ∧
    orderPair.count (.steady 1) newestOrder {} = .ok (capped 1 sorted.length) ∧
    orderPair.listRecords (.steady 1) newestOrder {} = .ok ((limited 1 sorted).map (·.record)) ∧
    (orderPair.listRecords (.steady 1) newestOrder {}).toOption.map (·.map (·.recordID)) =
      some ["b"] := by
  have hreach : Reach Step.Any ordersSpec orderPair := Reach.start.execAll _
  have hctx : ¬ ∃ i, (ReadEnv.steady 1).ctxDone i = true := fun ⟨_, hi⟩ => by cases hi
  have hfence : ({} : Fence).minEpoch ≤ orderPair.epoch := Nat.zero_le _
  have horg : trimSpace newestOrder.organizationID ≠ "" := by decide
  obtain ⟨sorted, ha, hcount, hlist⟩ :=
    queries_answered hreach horg hfence (.inl (by decide)) (.steady 1)
  exact ⟨sorted, ha, hcount.resolve_right fun h => hctx h.2,
    hlist.resolve_right fun h => hctx h.2, by decide +kernel⟩

end Partition

end Foundation.Hermes
