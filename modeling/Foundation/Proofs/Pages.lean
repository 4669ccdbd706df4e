import Foundation.Lib.Paging
import Foundation.Sanity.Queries

/-! Paging through a query. Pages are cut by version, so the pages of a query hold every
selected record once as long as the versions of an organization are published in order. -/

namespace Foundation.Hermes

open Go IndexSnapshot

/-! ### Publication in order -/

def IndexKey.tenant : IndexKey → RecordScope
  | .scope s => s
  | .field index => index.scope

namespace Batch

/-- An upsert or patch is newer than the live records of its organization, and its key was
not listed at its version before. -/
def InOrder (b : Batch) (event : Event) : Prop :=
  event.operation ≠ .delete →
  b.Newest (·.tenant = scopeOf event.record) (keyOf event.record) (b.eventVersion event)

variable {b : Batch}

theorem tenant_cellsOf {rec : DomainRecord} {cell : IndexKey} (h : cell ∈ b.cellsOf rec) :
    cell.tenant = scopeOf rec := by
  rcases List.mem_cons.mp h with rfl | h
  · rfl
  · obtain ⟨filter, -, rfl⟩ := List.mem_map.mp h
    rfl

theorem scopeOf_eq {a b : DomainRecord} (h : keyOf a = keyOf b) : scopeOf a = scopeOf b := by
  have hid := (keyOf_eq_iff a b).mp h
  unfold scopeOf scopeKey
  exact congrArg (fun i : RecordIdentity =>
    (⟨i.domain, i.collection, i.organizationID⟩ : RecordScope)) hid

theorem Descending.mutates {b b' : Batch} {event : Event} (h : b.Descending)
    (hm : b.Mutates ⟨Progress.acceptedOperation event.operation, event.record,
      b.eventVersion event⟩ b') (hin : b.InOrder event) : b'.Descending := by
  cases hm with
  | store entry op patches key version value fits =>
    dsimp only at op key version
    have hop : event.operation ≠ .delete := by
      rintro heq
      rw [heq] at op
      rcases op with op | op <;> cases op
    have hnew := hin hop
    rw [key, version, scopeOf_eq key] at hnew
    exact h.store ⟨hnew.unlisted, fun cell hc => hnew.newer cell (tenant_cellsOf hc)⟩
  | bury source => exact h.bury _ _ _

theorem Descending.remember (h : b.Descending) (source : String) (version : ℕ) :
    (b.remember source version).Descending :=
  h.congr (fun _ => remember_entry _ _ _ _) fun cell => by rw [remember_listed]

theorem Descending.observe (h : b.Descending) (version : ℕ) : (b.observe version).Descending :=
  h.congr (fun _ => rfl) fun cell => by rw [observe_listed]

end Batch

theorem descending_rules : Progress.Rules Batch.InOrder fun w => w.batch.Descending := by
  constructor
  · rintro w w' - hw - - (hb | ⟨source, version, hb⟩)
    · rw [hb]
      exact hw
    · rw [hb]
      exact hw.remember source version
  · intro w w' event mid _ hw hin hm _ _ hb
    rw [hb]
    exact ((hw.mutates hm hin).remember _ _).observe _
  · intro w w' now entry _ hw _ _ hm _ _
    generalize w'.batch = b' at hm ⊢
    cases hm with
    | store entry op => rcases op with op | op <;> cases op
    | bury source => exact hw.bury _ _ _

/-! A batch that counts its versions up is in order. -/

def Batch.Below (b : Batch) (version : ℕ) : Prop := ∀ cell, ∀ x ∈ b.listed cell, x.version < version

theorem Batch.Below.applyOne {w : Progress} {event : Event} {version : ℕ} (hk : w.batch.Keyed)
    (h : w.batch.Below version) (hlt : w.batch.eventVersion event < version) (now : Time) :
    (w.applyOne now event).batch.Below version := by
  rcases Progress.applyOne_cases hk now event with ⟨-, -, heq | ⟨-, heq⟩⟩ | ⟨-, mid, hm, -, -, heq⟩
  · rw [heq]
    exact h
  · intro cell
    rw [heq, remember_listed]
    exact h cell
  · intro cell x hx
    rw [heq, observe_listed, remember_listed] at hx
    cases hm with
    | store entry op patches key version_eq =>
      rw [store_listed] at hx
      split_ifs at hx
      · rcases List.mem_cons.mp hx with rfl | hx
        · exact version_eq ▸ hlt
        · exact h cell x hx
      · exact h cell x hx
    | bury source =>
      rw [bury_listed] at hx
      exact h cell x hx

theorem Progress.meets_inOrder {env : Env} {i : ℕ} {w : Progress} {events : List Event}
    (hk : w.batch.Keyed) (hasc : events.Pairwise fun a b => a.version < b.version)
    (h : ∀ event ∈ events, 0 < event.version ∧ w.batch.Below event.version) :
    Meets Batch.InOrder env i w events := by
  induction events generalizing i w with
  | nil => trivial
  | cons event rest ih =>
    intro _
    obtain ⟨hpos, hbelow⟩ := h event List.mem_cons_self
    have hver : w.batch.eventVersion event = event.version := if_pos hpos
    rw [List.pairwise_cons] at hasc
    refine ⟨fun _ _ => ?_, ih (applyOne_keyed hk _ _) hasc.2 fun later hlater => ?_⟩
    · rw [hver]
      exact ⟨fun cell hx => (hbelow cell _ hx).false, fun cell _ x hx _ => hbelow cell x hx⟩
    · obtain ⟨hpos', hbelow'⟩ := h later (List.mem_cons_of_mem _ hlater)
      exact ⟨hpos', hbelow'.applyOne hk (hver ▸ hasc.1 later hlater) _⟩

variable {spec : NormalSpec}

namespace Partition

/-- Every event the call applies is published in order. -/
def Step.InOrder (p : Partition) (s : Step) : Prop := s.Meets Batch.InOrder (fun _ _ => True) p

theorem newPartition_descending (spec : NormalSpec) : (newPartition spec).idle.Descending :=
  fun _ => List.Pairwise.nil

/-- A bulk load counts its records up, so it publishes them in order. -/
theorem descending_bulk {p : Partition} {env : Env} {records : List DomainRecord} {load : BulkState}
    (h : bulkStream env p.spec records = .ok load) : (p.bulkSwap load).idle.Descending := by
  obtain ⟨-, hdesc, -⟩ := bulkStream_rule (Q := fun s => s.batch.Descending ∧
      ∀ cell, ∀ x ∈ s.batch.listed cell, x.version < s.version)
    ⟨newPartition_descending p.spec, fun _ _ hx => absurd hx List.not_mem_nil⟩
    (fun s entry _ hq hver _ => by
      refine ⟨hq.1.store ⟨fun cell hx => ?_, fun cell _ x hx _ => hver ▸ hq.2 cell x hx⟩,
        fun cell x hx => ?_⟩
      · exact (hq.2 cell _ hx).ne hver
      · rw [Batch.store_listed] at hx
        split_ifs at hx
        · rcases List.mem_cons.mp hx with rfl | hx
          · exact hver ▸ Nat.lt_succ_self _
          · exact (hq.2 cell x hx).trans (Nat.lt_succ_self _)
        · exact (hq.2 cell x hx).trans (Nat.lt_succ_self _)) h
  exact hdesc.congr (p.bulkSwap_entry load) (p.bulkSwap_listed load)

theorem Reach.descending {p : Partition} (h : Reach Step.InOrder spec p) : p.idle.Descending := by
  refine Reach.rule (P := fun p => p.idle.Descending) (newPartition_descending spec)
    (fun p env events hk _ hp hm => ?_)
    (fun p env records load _ _ _ _ hload => descending_bulk hload) h
  obtain ⟨w, -, hw, hout⟩ := descending_rules.batch hk hp hm
  rw [hout]
  exact hw.congr (Progress.finish_entry w) w.finish_listed

/-! ### Pages -/

/-- The mutations a caller collects who follows the cursors from `before` to the last page. -/
inductive Pages (env : ReadEnv) (p : Partition) (query : Query) (fence : Fence) (sinceVersion : ℕ) :
    ℕ → List (DomainRecord × ℕ) → Prop
  | last {before : ℕ} {page : Snapshot} : p.pageMutations env query fence sinceVersion
    before = .ok page →
      page.hasMore = false → Pages env p query fence sinceVersion before page.mutations
  | more {before : ℕ} {page : Snapshot} {rest : List (DomainRecord × ℕ)} :
      p.pageMutations env query fence sinceVersion before = .ok page → page.hasMore = true →
      Pages env p query fence sinceVersion page.nextCursor rest →
      Pages env p query fence sinceVersion before (page.mutations ++ rest)

theorem Pages.unique {env : ReadEnv} {p : Partition} {query : Query} {fence : Fence}
    {sinceVersion before : ℕ} {all all' : List (DomainRecord × ℕ)}
    (h : Pages env p query fence sinceVersion before all)
    (h' : Pages env p query fence sinceVersion before all') : all = all' := by
  induction h generalizing all' with
  | last hpage hmore =>
    cases h' with
    | last hpage' hmore' =>
      rw [hpage] at hpage'
      rw [Except.ok.inj hpage']
    | more hpage' hmore' _ =>
      rw [hpage] at hpage'
      rw [Except.ok.inj hpage', hmore'] at hmore
      cases hmore
  | more hpage hmore _ ih =>
    cases h' with
    | last hpage' hmore' =>
      rw [hpage] at hpage'
      rw [Except.ok.inj hpage', hmore'] at hmore
      cases hmore
    | more hpage' hmore' hrest =>
      rw [hpage] at hpage'
      obtain rfl := Except.ok.inj hpage'
      rw [ih hrest]

def mutationOf (e : RecordEntry) : DomainRecord × ℕ := (e.record, e.version)

/-- What of a list of entries is above the floor and below the cursor. -/
def between (sinceVersion before : ℕ) (entries : List RecordEntry) : List RecordEntry :=
  entries.filter fun e => decide (sinceVersion < e.version ∧ (before = 0 ∨ e.version < before))

/-- A page with room for `room` more mutations after `start`, filled from what is left: it takes
the beginning, and its cursor is the last version on it. -/
structure Filled (room : ℕ) (start : List (DomainRecord × ℕ)) (left : List RecordEntry)
    (page : Snapshot) : Prop where
  mutations : page.mutations = start ++ (left.take room).map mutationOf
  more_iff : page.hasMore = true ↔ room ≤ left.length
  cursor : page.hasMore = true →
    (left.take room).getLast?.map (·.version) = some page.nextCursor

theorem Filled.nothing {room : ℕ} {start : List (DomainRecord × ℕ)} {page : Snapshot}
    (hroom : 0 < room) (hstart : page.mutations = start) (hmore : page.hasMore = false) :
    Filled room start [] page := by
  refine ⟨by simpa using hstart, ?_, fun h => absurd (hmore.symm.trans h) (by decide)⟩
  rw [hmore]
  simp only [Bool.false_eq_true, List.length_nil, false_iff]
  omega

theorem Filled.cons {room : ℕ} {start : List (DomainRecord × ℕ)} {e : RecordEntry}
    {left : List RecordEntry} {page : Snapshot}
    (h : Filled room (start ++ [mutationOf e]) left page) :
    Filled (room + 1) start (e :: left) page := by
  refine ⟨?_, ?_, fun hmore => ?_⟩
  · rw [h.mutations, List.take_succ_cons, List.map_cons, List.append_assoc]
    rfl
  · rw [h.more_iff, List.length_cons]
    omega
  · obtain ⟨last, hlast, hver⟩ := Option.map_eq_some_iff.mp (h.cursor hmore)
    rw [List.take_succ_cons, List.getLast?_cons, hlast]
    exact congrArg some hver

section

variable {entryOf : RecordOrderEntry → Option RecordEntry} {sinceVersion before : ℕ}
  {x : RecordOrderEntry} {rest : List RecordOrderEntry}
  (hver : ∀ x e, entryOf x = some e → e.version = x.version)

include hver

theorem between_cons_skip (h : 0 < before ∧ before ≤ x.version) :
    between sinceVersion before ((x :: rest).filterMap entryOf) =
      between sinceVersion before (rest.filterMap entryOf) := by
  rw [List.filterMap_cons]
  cases hx : entryOf x with
  | none => rfl
  | some e =>
    refine List.filter_cons_of_neg ?_
    rw [decide_eq_true_eq, hver x e hx]
    omega

/-- Everything listed below an entry that is not above the floor is not either. -/
theorem between_cons_stop (h : x.version ≤ sinceVersion)
    (hdesc : ∀ y ∈ rest, (entryOf y).isSome = true → y.version < x.version) :
    between sinceVersion before ((x :: rest).filterMap entryOf) = [] := by
  refine List.filter_eq_nil_iff.mpr fun e he => ?_
  obtain ⟨y, hy, hye⟩ := List.mem_filterMap.mp he
  have hle : y.version ≤ x.version := by
    rcases List.mem_cons.mp hy with rfl | hy
    · exact le_rfl
    · exact (hdesc y hy (by rw [hye]; rfl)).le
  rw [decide_eq_true_eq, hver y e hye]
  omega

theorem between_cons_in {e : RecordEntry} (hskip : ¬ (0 < before ∧ before ≤ x.version))
    (hstop : ¬ x.version ≤ sinceVersion) (hx : entryOf x = some e) :
    between sinceVersion before ((x :: rest).filterMap entryOf) =
      e :: between sinceVersion before (rest.filterMap entryOf) := by
  rw [List.filterMap_cons_some hx]
  refine List.filter_cons_of_pos ?_
  rw [decide_eq_true_eq, hver x e hx]
  omega

/-- The walk fills its page from the entries between the floor and the cursor. -/
theorem pageWalk_ok {ctxDone : ℕ → Bool} {limit : ℤ} (hctx : ∀ i, ctxDone i = false)
    (l : List RecordOrderEntry)
    (hdesc : l.Pairwise fun x y => (entryOf y).isSome = true → y.version < x.version) (i : ℕ)
    (page : Snapshot) {room : ℕ} (hroom : limit = page.mutations.length + (room + 1 : ℕ))
    (hmore : page.hasMore = false) :
    ∃ out, pageWalk ctxDone entryOf limit sinceVersion before i page l = .ok out ∧
      Filled (room + 1) page.mutations (between sinceVersion before (l.filterMap entryOf)) out := by
  induction l generalizing i page room with
  | nil => exact ⟨page, rfl, .nothing (Nat.succ_pos _) rfl hmore⟩
  | cons x rest ih =>
    rw [List.pairwise_cons] at hdesc
    have ih := ih hdesc.2
    unfold pageWalk
    by_cases hskip : 0 < before ∧ before ≤ x.version
    · rw [if_pos hskip, between_cons_skip hver hskip]
      exact ih i page hroom hmore
    by_cases hstop : x.version ≤ sinceVersion
    · rw [if_neg hskip, if_pos hstop, between_cons_stop hver hstop hdesc.1]
      exact ⟨page, rfl, .nothing (Nat.succ_pos _) rfl hmore⟩
    rw [if_neg hskip, if_neg hstop]
    cases hx : entryOf x with
    | none =>
      rw [List.filterMap_cons_none hx]
      exact ih i page hroom hmore
    | some e =>
      rw [between_cons_in hver hskip hstop hx]
      dsimp only
      rw [if_neg (by rw [hctx]; decide)]
      -- the page is full with this entry, or has room for the next
      cases room with
      | zero =>
        rw [if_pos (by rw [List.length_append, List.length_singleton]; omega)]
        exact ⟨_, rfl, by simp [mutationOf], by simp, fun _ => by simp⟩
      | succ room =>
        rw [if_neg (by rw [List.length_append, List.length_singleton]; omega)]
        have hleft : limit = (page.mutations ++ [mutationOf e]).length + (room + 1 : ℕ) := by
          rw [List.length_append, List.length_singleton]
          omega
        obtain ⟨out, hout, hfilled⟩ := ih (i + 1)
          { page with mutations := page.mutations ++ [mutationOf e], nextCursor := e.version } hleft
            hmore
        exact ⟨out, hout, hfilled.cons⟩

end

/-! ### The pages of a query -/

/-- Each snapshot considered is one of a relevant cell; if there is none, nothing is selected. -/
theorem Reach.orderedCandidate {C : Partition → Step → Prop} {p : Partition} (h : Reach C spec p)
    (now : Time) (query : Query) :
    match p.orderedCandidateIndex (normalizeQuery query) with
    | none => ∀ e, ¬ p.Selected now query e
    | some s => p.Candidate now query s := by
  have hk := h.keyed.1
  have hstep : ∀ (selected : Option IndexSnapshot) (cell : IndexKey), p.Relevant now query cell →
      (∀ s, selected = some s → p.Candidate now query s) →
      (∀ s, consider selected (p.registry.indexes cell) = some s → p.Candidate now query s) ∧
      (consider selected (p.registry.indexes cell) = none → ∀ e, ¬ p.Selected now query e) := by
    intro selected cell hc hsel
    unfold consider
    split_ifs with hlen
    · exact ⟨hsel, fun _ => h.none_selected hc hlen⟩
    · cases selected with
      | none => exact ⟨fun s hs => Option.some_inj.mp hs ▸ h.candidate hc, fun hs => by cases hs⟩
      | some best =>
        dsimp only
        split_ifs
        · exact ⟨fun s hs => Option.some_inj.mp hs ▸ h.candidate hc, fun hs => by cases hs⟩
        · exact ⟨hsel, fun hs => by cases hs⟩
  have hfold : ∀ (cells : List IndexKey) (start : Option IndexSnapshot),
      (∀ cell ∈ cells, p.Relevant now query cell) →
      (∀ s, start = some s → p.Candidate now query s) →
        (start = none → ∀ e, ¬ p.Selected now query e) →
      (∀ s, cells.foldl (fun selected cell => consider selected (p.registry.indexes cell))
        start = some s →
        p.Candidate now query s) ∧
      (cells.foldl (fun selected cell => consider selected (p.registry.indexes cell)) start = none →
        ∀ e, ¬ p.Selected now query e) := by
    intro cells
    induction cells with
    | nil => exact fun start _ hsome hnone => ⟨hsome, hnone⟩
    | cons cell rest ih =>
      intro start hcells hsome hnone
      obtain ⟨hsome', hnone'⟩ := hstep start cell (hcells cell List.mem_cons_self) hsome
      exact ih _ (fun c hc => hcells c (List.mem_cons_of_mem _ hc)) hsome' hnone'
  obtain ⟨hsome, hnone⟩ := hstep none _ (relevant_scope hk) fun s hs => by cases hs
  obtain ⟨hsome', hnone'⟩ :=
    hfold (p.filterCells (normalizeQuery query)) _ (fun cell => relevant_filterCells hk) hsome
    hnone
  cases hidx : p.orderedCandidateIndex (normalizeQuery query) with
  | none => exact hnone' hidx
  | some s => exact hsome' s hidx

/-- The pages of a query hold the selected records above the floor, each once, newest first. -/
def Complete (p : Partition) (env : ReadEnv) (query : Query) (fence : Fence) (sinceVersion : ℕ) :
    Prop :=
  ∃ all : List RecordEntry, Pages env p query fence sinceVersion 0 (all.map mutationOf) ∧
    all.Nodup ∧
    (∀ e, e ∈ all ↔ p.Selected env.now query e ∧ sinceVersion < e.version) ∧
    all.Pairwise fun a b => b.version ≤ a.version

section

variable {p : Partition} {query : Query} {fence : Fence} {env : ReadEnv} {s : IndexSnapshot}

def orderWalk (p : Partition) (now : Time) (query : Query) (s : IndexSnapshot) : List RecordEntry :=
  (forEachOrderDesc s).filterMap fun x => (p.recordForOrderEntry now x).filter fun entry =>
    recordMatches entry.record p.spec.toProjectionSpec (normalizeQuery query)

variable (hk : p.idle.Keyed) (horg : trimSpace query.organizationID ≠ "")
  (hcand : p.Candidate env.now query s)

include hk horg hcand in
theorem mem_orderWalk (e : RecordEntry) :
    e ∈ p.orderWalk env.now query s ↔ p.Selected env.now query e := by
  rw [orderWalk, List.mem_filterMap]
  constructor
  · rintro ⟨x, -, hx⟩
    exact ((orderMatching_iff hk horg).mp hx).2
  · intro hs
    exact ⟨_, hcand.order_mem e hs, (orderMatching_iff hk horg).mpr ⟨rfl, hs⟩⟩

variable (hdesc : p.idle.Descending)

include hk horg hcand hdesc in
/-- Whatever the walk comes by, later entries that lead to a record have a lower version. -/
theorem forEachOrderDesc_descending : (forEachOrderDesc s).Pairwise fun x y =>
    ((p.recordForOrderEntry env.now y).filter fun entry =>
      recordMatches entry.record p.spec.toProjectionSpec (normalizeQuery query)).isSome = true →
        y.version < x.version := by
  obtain ⟨cell, hsub⟩ := hcand.listed
  refine ((hdesc cell).sublist hsub).imp fun {x y} hxy hy => hxy ?_
  obtain ⟨e, he⟩ := Option.isSome_iff_exists.mp hy
  obtain ⟨rfl, hs⟩ := (orderMatching_iff hk horg).mp he
  exact ⟨e, hs.live, rfl⟩

include hk horg hcand hdesc in
theorem orderWalk_descending :
    (p.orderWalk env.now query s).Pairwise fun a b => b.version < a.version := by
  refine List.Pairwise.filterMap _ (fun x y hxy e he e' he' => ?_)
    (forEachOrderDesc_descending hk horg hcand hdesc)
  have hlt := hxy (by rw [he']; rfl)
  obtain ⟨rfl, -⟩ := (orderMatching_iff hk horg).mp he
  obtain ⟨rfl, -⟩ := (orderMatching_iff hk horg).mp he'
  exact hlt

variable (hlimit : 1 ≤ query.limit) (hfence : fence.minEpoch ≤ p.epoch) (hctx : ∀ i,
  env.ctxDone i = false)
  (hidx : p.orderedCandidateIndex (normalizeQuery query) = some s)

include hk horg hcand hdesc hlimit hfence hctx hidx in
theorem pageMutations_ok (sinceVersion before : ℕ) :
    ∃ page, p.pageMutations env query fence sinceVersion before = .ok page ∧
      Filled query.limit.toNat [] (between sinceVersion before (p.orderWalk env.now query s))
        page := by
  have hver : ∀ x e, ((p.recordForOrderEntry env.now x).filter fun entry =>
      recordMatches entry.record p.spec.toProjectionSpec (normalizeQuery query)) = some e →
      e.version = x.version := fun x e he => by
    obtain ⟨rfl, -⟩ := (orderMatching_iff hk horg).mp he
    rfl
  obtain ⟨room, hroom⟩ : ∃ room, query.limit.toNat = room + 1 := ⟨query.limit.toNat - 1, by omega⟩
  have hempty : query.limit =
      (({ epoch := p.epoch, watermark := p.watermark } : Snapshot).mutations.length : ℤ) +
        (room + 1 : ℕ) := by
    dsimp only [List.length_nil]
    omega
  obtain ⟨out, hout, hfilled⟩ :=
    @pageWalk_ok _ sinceVersion before hver _ _ hctx (forEachOrderDesc s)
    (forEachOrderDesc_descending hk horg hcand hdesc) 1 _ _ hempty rfl
  rw [hroom]
  refine ⟨{ out with nextCursor := if out.hasMore then out.nextCursor else 0 }, ?_,
    hfilled.mutations, hfilled.more_iff, fun h => ?_⟩
  · unfold pageMutations
    rw [show p.checkFence fence = .ok () from if_neg (not_lt.mpr hfence)]
    dsimp only [bind, Except.bind]
    rw [if_neg (show ¬ (normalizeQuery query).organizationID = "" from horg), hidx]
    dsimp only
    rw [show (normalizeQuery query).limit = query.limit from rfl, hout]
    rfl
  · dsimp only at h ⊢
    rw [if_pos h]
    exact hfilled.cursor h

end

/-- All records a query selects, newest version first, and the pages cut from them. -/
structure Listing (p : Partition) (env : ReadEnv) (query : Query) (fence : Fence)
  (all : List RecordEntry) : Prop where
  descending : Paging.Descending RecordEntry.version all
  mem_iff : ∀ e, e ∈ all ↔ p.Selected env.now query e
  page : ∀ sinceVersion before, ∃ page,
    p.pageMutations env query fence sinceVersion before = .ok page ∧
    Filled query.limit.toNat [] (between sinceVersion before all) page

theorem Reach.listing {p : Partition} (h : Reach Step.InOrder spec p) (query : Query)
    (hlimit : 1 ≤ query.limit) (horg : trimSpace query.organizationID ≠ "") (fence : Fence)
    (hfence : fence.minEpoch ≤ p.epoch) {env : ReadEnv} (hctx : ∀ i, env.ctxDone i = false) :
    ∃ all, p.Listing env query fence all := by
  have hk := h.keyed.1
  have hcandidate := h.orderedCandidate env.now query
  cases hidx : p.orderedCandidateIndex (normalizeQuery query) with
  | none =>
    rw [hidx] at hcandidate
    have hpos : 0 < query.limit.toNat := by omega
    refine ⟨[], List.Pairwise.nil,
      fun e => ⟨fun he => absurd he List.not_mem_nil, fun he => absurd he (hcandidate e)⟩,
      fun sinceVersion before => ⟨{ epoch := p.epoch, watermark := p.watermark }, ?_,
        .nothing hpos rfl rfl⟩⟩
    unfold pageMutations
    rw [show p.checkFence fence = .ok () from if_neg (not_lt.mpr hfence)]
    dsimp only [bind, Except.bind]
    rw [if_neg (show ¬ (normalizeQuery query).organizationID = "" from horg), hidx]
    rfl
  | some s =>
    rw [hidx] at hcandidate
    exact ⟨_, orderWalk_descending hk horg hcandidate h.descending,
      mem_orderWalk hk horg hcandidate,
      pageMutations_ok hk horg hcandidate h.descending hlimit hfence hctx hidx⟩

theorem between_below {all : List RecordEntry} (h : Paging.Descending RecordEntry.version all)
    {sinceVersion before k : ℕ} {last : RecordEntry}
    (hlast : ((between sinceVersion before all).take k).getLast? = some last) :
    between sinceVersion last.version all = (between sinceVersion before all).drop k := by
  have hbounds :=
    of_decide_eq_true (List.mem_filter.mp (List.mem_of_mem_take (List.mem_of_getLast? hlast))).2
  have hsorted : Paging.Descending RecordEntry.version (between sinceVersion before all) :=
    h.filter _
  rw [← hsorted.filter_below hlast, between, between, List.filter_filter]
  refine List.filter_congr fun e _ => ?_
  rw [← Bool.decide_and, decide_eq_decide]
  omega

/-- Following the cursors from anywhere collects what is left from there. -/
theorem Listing.pages_from {p : Partition} {env : ReadEnv} {query : Query} {fence : Fence}
    {all : List RecordEntry} (h : p.Listing env query fence all) (hlimit : 1 ≤ query.limit)
    (sinceVersion before : ℕ) :
    Pages env p query fence sinceVersion before
      ((between sinceVersion before all).map mutationOf) := by
  generalize hn : (between sinceVersion before all).length = n
  induction n using Nat.strong_induction_on generalizing before with
  | _ n ih =>
    subst hn
    obtain ⟨page, hpage, hfilled⟩ := h.page sinceVersion before
    have hmut : page.mutations = ((between sinceVersion before all).take query.limit.toNat).map
        mutationOf :=
      hfilled.mutations
    cases hhas : page.hasMore with
    | false =>
      have hshort : ¬ query.limit.toNat ≤ (between sinceVersion before all).length := by
        rw [← hfilled.more_iff, hhas]
        decide
      rw [List.take_of_length_le (not_le.mp hshort).le] at hmut
      rw [← hmut]
      exact .last hpage hhas
    | true =>
      obtain ⟨last, hlast, hcursor⟩ := Option.map_eq_some_iff.mp (hfilled.cursor hhas)
      have hrest := between_below h.descending hlast
      rw [hcursor] at hrest
      have hlen : (between sinceVersion page.nextCursor all).length <
          (between sinceVersion before all).length := by
        rw [hrest, List.length_drop]
        have hle := hfilled.more_iff.mp hhas
        omega
      have hpages := Pages.more hpage hhas (ih _ hlen page.nextCursor rfl)
      rwa [hmut, hrest, ← List.map_append, List.take_append_drop] at hpages

/-- As long as every upsert and patch that is applied brings a version newer than those of the
live records of its organization, paging misses and repeats nothing. -/
theorem pages_complete {spec : NormalSpec} {p : Partition} (h : Reach Step.InOrder spec p)
    {query : Query} (hlimit : 1 ≤ query.limit) (horg : trimSpace query.organizationID ≠ "")
    {fence : Fence} (hfence : fence.minEpoch ≤ p.epoch) {env : ReadEnv}
    (hctx : ∀ i, env.ctxDone i = false) (sinceVersion : ℕ) :
    p.Complete env query fence sinceVersion := by
  obtain ⟨all, hall⟩ := h.listing query hlimit horg fence hfence hctx
  have hsorted :=
    hall.descending.filter fun e => decide (sinceVersion < e.version ∧ (0 = 0 ∨ e.version < 0))
  refine ⟨_, hall.pages_from hlimit sinceVersion 0, hsorted.nodup, fun e => ?_,
    List.Pairwise.imp (fun hlt => hlt.le) hsorted⟩
  rw [between, List.mem_filter, hall.mem_iff, decide_eq_true_eq]
  simp

/-! ### On concrete input -/

def oneOrderAPage : Query := { organizationID := "acme", limit := 1 }

def versionedOrders : List Event :=
  [⟨.upsert, "", 1, order "a" "open"⟩, ⟨.upsert, "", 2, order "b" "open"⟩]

/-- Two orders of a batch, one a page. -/
theorem pages_complete_for_two_orders :
    ((newPartition ordersSpec).exec (.applyBatch (.steady 1) versionedOrders)).Complete (.steady 2)
      oneOrderAPage {} 0 ∧
    ((newPartition ordersSpec).exec (.applyBatch (.steady 1) versionedOrders)).records = 2 := by
  have hmeets : Progress.Meets Batch.InOrder (.steady 1) 1
      ((newPartition ordersSpec).startBatch (.steady 1))
      versionedOrders :=
    Progress.meets_inOrder (newPartition_keyed ordersSpec) (by decide) fun event hmem =>
      ⟨(by decide : ∀ e ∈ versionedOrders, 0 < e.version) event hmem,
        fun _ _ hx => absurd hx List.not_mem_nil⟩
  have hreach : Reach Step.InOrder ordersSpec _ :=
    .step (.applyBatch (.steady 1) versionedOrders) .start hmeets
  exact ⟨pages_complete hreach (by decide) (by decide) (Nat.zero_le _) (fun _ => rfl)
    0, by decide +kernel⟩

def unversionedOrders : Partition := (newPartition ordersSpec).execAll
  [.applyBatch (.steady 1) [⟨.upsert, "", 0, order "a" "open"⟩, ⟨.upsert, "", 0, order "b" "open"⟩]]

/-- Both orders get the same version, and the cursor after the first page passes over the other. -/
theorem equal_versions_lost_between_pages : Reach Step.Any ordersSpec unversionedOrders ∧
    ¬ unversionedOrders.Complete (.steady 2) oneOrderAPage {} 0 := by
  have hreach : Reach Step.Any ordersSpec unversionedOrders := Reach.start.execAll _
  refine ⟨hreach, fun hcomplete => ?_⟩
  obtain ⟨all, hpages, -, hmem, -⟩ := hcomplete
  obtain ⟨page, hpage, hids, hcur, hmore⟩ : ∃ page : Snapshot,
      unversionedOrders.pageMutations (.steady 2) oneOrderAPage {} 0 0 = .ok page ∧
        page.mutations.map (·.1.recordID) = ["b"] ∧ page.nextCursor = 1 ∧ page.hasMore = true :=
    ⟨_, rfl, by decide +kernel, by decide +kernel, by decide +kernel⟩
  obtain ⟨page', hpage', hids', hmore'⟩ : ∃ page : Snapshot,
      unversionedOrders.pageMutations (.steady 2) oneOrderAPage {} 0 1 = .ok page ∧
        page.mutations.map (·.1.recordID) = [] ∧ page.hasMore = false :=
    ⟨_, rfl, by decide +kernel, by decide +kernel⟩
  have hall := hpages.unique (.more hpage hmore (.last (hcur ▸ hpage') hmore'))
  have hall := congrArg (List.map (·.1.recordID)) hall
  rw [List.map_append, hids, hids', List.map_map] at hall
  obtain ⟨e, he⟩ := Option.isSome_iff_exists.mp
    (by decide +kernel : (unversionedOrders.idle.entry (keyOf (order "a" "open"))).isSome = true)
  have hfacts : (unversionedOrders.idle.entry (keyOf (order "a" "open"))).any
      (fun e => !Progress.expired 3 e &&
      e.record.organizationID == "acme" && decide (0 < e.version) && e.record.recordID == "a") =
        true := by
    decide +kernel
  rw [he, Option.any_some] at hfacts
  simp only [Bool.and_eq_true, Bool.not_eq_eq_eq_not, Bool.not_true, decide_eq_true_eq,
    beq_iff_eq] at hfacts
  obtain ⟨⟨⟨hx, ho⟩, hv⟩, hid⟩ := hfacts
  have hin :=
    (hmem e).mpr ⟨⟨by rw [hreach.keyed.1.key_eq _ e he]; exact he, hx, ho, fun _ hf => absurd hf
    List.not_mem_nil⟩, hv⟩
  have hlisted : e.record.recordID ∈ ["b"] := by
    have hmap :=
      List.mem_map_of_mem (f := (fun x : DomainRecord × ℕ => x.1.recordID) ∘ mutationOf) hin
    rw [hall] at hmap
    exact hmap
  rw [hid] at hlisted
  exact absurd hlisted (by decide)

end Partition

end Foundation.Hermes
