import Foundation.Lib.BoundedSelection
import Foundation.Sanity.Publication

/-! What a query asks for, and that each way of looking for it finds it: the candidate index
lists every selected record, and the scans over it visit each of them once. -/

namespace Foundation.Hermes

open Go IndexSnapshot BoundedHeap

/-- The canonical order: latest update first, then newest version, then ascending id. -/
def RecordEntry.Before (a b : RecordEntry) : Prop :=
  b.record.updatedAt < a.record.updatedAt ∨ a.record.updatedAt = b.record.updatedAt ∧
    (b.version < a.version ∨ a.version = b.version ∧ a.record.recordID < b.record.recordID)

theorem compareColumnarEntries_lt (a b : RecordEntry) :
    compareColumnarEntries a b = .lt ↔ a.Before b := by
  unfold compareColumnarEntries RecordEntry.Before
  simp only [Ordering.then_eq_lt, Ordering.then_eq_eq, compare_lt_iff_lt, compare_eq_iff_eq]
  constructor
  · rintro ((h | ⟨h, h'⟩) | ⟨⟨h, h'⟩, h''⟩)
    · exact .inl h
    · exact .inr ⟨h.symm, .inl h'⟩
    · exact .inr ⟨h.symm, .inr ⟨h'.symm, h''⟩⟩
  · rintro (h | ⟨h, h' | ⟨h', h''⟩⟩)
    · exact .inl (.inl h)
    · exact .inl (.inr ⟨h.symm, h'⟩)
    · exact .inr ⟨⟨h.symm, h'.symm⟩, h''⟩

instance compareColumnarEntries_trans : Std.TransCmp compareColumnarEntries := by
  have htime : Std.TransCmp fun a b :
      RecordEntry => compareOn (fun e : RecordEntry => e.record.updatedAt) b a :=
    Std.TransCmp.opposite
  have hver : Std.TransCmp fun a b :
      RecordEntry => compareOn (fun e : RecordEntry => e.version) b a :=
    Std.TransCmp.opposite
  exact inferInstanceAs (Std.TransCmp (compareLex (compareLex (fun a b : RecordEntry =>
    compareOn (fun e : RecordEntry => e.record.updatedAt) b a) (fun a b : RecordEntry =>
    compareOn (fun e : RecordEntry => e.version) b a)) (compareOn fun e :
      RecordEntry => e.record.recordID)))

namespace Partition

variable {p : Partition} {now : Time} {query : Query}

/-- A live unexpired record of the organization that meets all filters. -/
structure Selected (p : Partition) (now : Time) (query : Query) (e : RecordEntry) : Prop where
  live : p.idle.entry (keyOf e.record) = some e
  unexpired : Progress.expired now e = false
  organization : e.record.organizationID = trimSpace query.organizationID
  filters : ∀ filter ∈ query.plan.planned, matchesFilter e.record.data filter = true

/-- All records a query selects, in canonical order. -/
structure Answers (p : Partition) (now : Time) (query : Query) (sorted : List RecordEntry) :
  Prop where
  mem_iff : ∀ e, e ∈ sorted ↔ p.Selected now query e
  sorted : sorted.Pairwise RecordEntry.Before

theorem recordMatches_iff (hk : p.idle.Keyed) (horg : trimSpace query.organizationID ≠ "")
    {key : String} {e : RecordEntry} (he : p.idle.entry key = some e) :
    recordMatches e.record p.spec.toProjectionSpec (normalizeQuery query) = true ↔
      e.record.organizationID = trimSpace query.organizationID ∧
        ∀ filter ∈ query.plan.planned, matchesFilter e.record.data filter = true := by
  have hd := hk.domain_eq key e he
  have hc := hk.collection_eq key e he
  have hplan : (if query.plan.count > 0 then matchesPlannedFilters e.record.data query.plan
      else true) = true ↔
      ∀ filter ∈ query.plan.planned, matchesFilter e.record.data filter = true := by
    split_ifs with hcount
    · rw [matchesPlannedFilters, List.all_eq_true]
    · rw [not_lt, Nat.le_zero] at hcount
      rw [QueryPlan.planned, hcount]
      simp
  unfold recordMatches normalizeQuery
  rw [if_neg (by rw [not_or, not_ne_iff, not_ne_iff]; exact ⟨hd, hc⟩)]
  dsimp only
  rw [trimSpace_trimSpace, ← hplan]
  by_cases ho : e.record.organizationID = trimSpace query.organizationID
  · rw [if_neg fun h => h.2 ho]
    simp [ho]
  · rw [if_pos ⟨horg, ho⟩]
    simp [ho]

theorem matching_iff (hk : p.idle.Keyed) (horg : trimSpace query.organizationID ≠ "") {key : String}
    {e : RecordEntry} : p.matching now (normalizeQuery query) key = some e ↔
      key = keyOf e.record ∧ p.Selected now query e := by
  unfold matching recordEntry
  rw [Option.filter_eq_some_iff, Option.filter_eq_some_iff]
  change (p.idle.entry key = some e ∧ _) ∧ _ ↔ _
  constructor
  · rintro ⟨⟨he, hx⟩, hm⟩
    have hkey := hk.key_eq key e he
    obtain ⟨ho, hf⟩ := (recordMatches_iff hk horg he).mp hm
    exact ⟨hkey.symm, by rw [hkey]; exact he, by simpa using hx, ho, hf⟩
  · rintro ⟨rfl, hs⟩
    exact ⟨⟨hs.live, by rw [hs.unexpired]; rfl⟩,
      (recordMatches_iff hk horg hs.live).mpr ⟨hs.organization, hs.filters⟩⟩

theorem orderMatching_iff (hk : p.idle.Keyed) (horg : trimSpace query.organizationID ≠ "")
    {x : RecordOrderEntry} {e : RecordEntry} : ((p.recordForOrderEntry now x).filter fun entry =>
      recordMatches entry.record p.spec.toProjectionSpec (normalizeQuery query)) = some e ↔
      x = ⟨keyOf e.record, e.version⟩ ∧ p.Selected now query e := by
  have hm := @matching_iff p now query hk horg x.key e
  unfold matching at hm
  rw [Option.filter_eq_some_iff] at hm
  rw [Option.filter_eq_some_iff, recordForOrderEntry, Option.filter_eq_some_iff, beq_iff_eq,
    and_right_comm, hm]
  constructor
  · rintro ⟨⟨hkey, hs⟩, hv⟩
    exact ⟨by rw [← hkey, hv], hs⟩
  · rintro ⟨rfl, hs⟩
    exact ⟨⟨rfl, hs⟩, rfl⟩

/-! ### The candidate index -/

/-- A cell every selected record is listed in. -/
def Relevant (p : Partition) (now : Time) (query : Query) (cell : IndexKey) : Prop :=
  ∀ e, p.Selected now query e → cell ∈ p.idle.cellsOf e.record

theorem queryScope_eq (p : Partition) (query : Query) : p.queryScope (normalizeQuery query) =
    ⟨p.spec.domain, p.spec.collection, trimSpace query.organizationID⟩ := by
  unfold queryScope normalizeQuery scopeKey
  rw [trimSpace_trimSpace, p.spec.domain_trim, p.spec.collection_trim]

theorem relevant_scope (hk : p.idle.Keyed) :
    p.Relevant now query (.scope (p.queryScope (normalizeQuery query))) :=
  fun e hs => by
    rw [queryScope_eq]
    exact (Batch.mem_cells_scope hk hs.live _).mpr hs.organization

variable {cell : IndexKey} {C : Partition → Step → Prop} {spec : NormalSpec}

theorem relevant_filterCells (hk : p.idle.Keyed)
    (hc : cell ∈ p.filterCells (normalizeQuery query)) :
    p.Relevant now query cell := fun e hs => by
  obtain ⟨filter, hf, rfl⟩ := List.mem_map.mp hc
  obtain ⟨hplan, hindexed⟩ := List.mem_filter.mp hf
  rw [queryScope_eq]
  exact (Batch.mem_cells_field hk hs.live _ (List.contains_iff_mem.mp hindexed)).mpr
    ⟨hs.organization, hs.filters filter hplan⟩

/-- A snapshot that covers, perhaps among others, all selected records, out of a relevant cell. -/
structure Candidate (p : Partition) (now : Time) (query : Query) (s : IndexSnapshot) : Prop where
  listed : ∃ cell, (forEachOrderDesc s).Sublist (p.idle.listed cell)
  key_mem : ∀ o e, p.Selected now query e → keyOf e.record ∈ forEachKey o s
  order_mem : ∀ e, p.Selected now query e → ⟨keyOf e.record, e.version⟩ ∈ forEachOrderDesc s

theorem Reach.candidate (h : Reach C spec p) (hc : p.Relevant now query cell) :
    p.Candidate now query (p.registry.indexes cell) := by
  obtain ⟨live, hlive, hcov⟩ := h.covers cell
  have hlook : ∀ e, p.Selected now query e → live.lookup (keyOf e.record) = some e.version :=
    fun e hs =>
    (hlive _ _).mpr ⟨e, hs.live, hc e hs, rfl⟩
  refine ⟨⟨cell, List.Sublist.refl _⟩, fun o e hs => ?_, fun e hs => ?_⟩
  · exact hcov.mem_forEachKey o ((GoMap.mem_keys_iff _ _).mpr ⟨_, hlook e hs⟩)
  · exact List.mem_of_find?_eq_some (hcov.newest (hlook e hs))

theorem Reach.none_selected (h : Reach C spec p) (hc : p.Relevant now query cell)
    (hlen : len (p.registry.indexes cell) = 0) (e : RecordEntry) :
    ¬ p.Selected now query e := fun hs => by
  obtain ⟨live, hlive, hcov⟩ := h.covers cell
  exact hcov.eq_empty hlen _ ((hlive.mem_keys _).mpr ⟨e, hs.live, hc e hs⟩)

theorem Reach.candidateIndex (h : Reach C spec p) :
    p.Candidate now query (p.candidateIndex (normalizeQuery query)) := by
  have hk := h.keyed.1
  have hfold : ∀ (cells : List IndexKey) (start : IndexKey),
      (∀ cell ∈ cells, p.Relevant now query cell) →
      p.Relevant now query start → ∃ cell, p.Relevant now query cell ∧
        cells.foldl (fun selected cell =>
        if len (p.registry.indexes cell) < len selected then p.registry.indexes cell else selected)
        (p.registry.indexes start) = p.registry.indexes cell := by
    intro cells
    induction cells with
    | nil => exact fun start _ hstart => ⟨start, hstart, rfl⟩
    | cons cell rest ih =>
      intro start hcells hstart
      rw [List.foldl_cons]
      have hrest : ∀ cell ∈ rest, p.Relevant now query cell :=
        fun c hc => hcells c (List.mem_cons_of_mem _ hc)
      split_ifs
      · exact ih cell hrest (hcells cell List.mem_cons_self)
      · exact ih start hrest hstart
  obtain ⟨cell, hc, heq⟩ :=
    hfold (p.filterCells (normalizeQuery query)) _ (fun cell => relevant_filterCells hk)
    (relevant_scope hk)
  unfold Partition.candidateIndex
  dsimp only
  rw [heq]
  split_ifs with hlen
  · refine ⟨⟨cell, List.nil_sublist _⟩, fun o e hs => ?_, fun e hs => ?_⟩
    · exact absurd hs (h.none_selected hc hlen e)
    · exact absurd hs (h.none_selected hc hlen e)
  · exact h.candidate hc

end Partition

end Foundation.Hermes
