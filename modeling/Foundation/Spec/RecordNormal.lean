import Foundation.Spec.Record
import Mathlib.Data.List.GetD
import Mathlib.Data.String.Basic

/-! Normalized record data: trimmed, non-blank field names in strictly increasing order.
`normalize` produces it, and stamping the organization leaves it alone once stamped. -/

namespace Foundation

open Go

namespace RecordData

structure Normal (d : RecordData) : Prop where
  trimmed : ∀ field ∈ d, trimSpace field.name = field.name
  nonblank : ∀ field ∈ d, field.name ≠ ""
  increasing : d.Pairwise (·.name < ·.name)

theorem empty_lt_iff (s : String) : "" < s ↔ s ≠ "" := by
  constructor
  · rintro h rfl
    exact lt_irrefl _ h
  · intro h
    rcases lt_trichotomy "" s with hlt | heq | hgt
    · exact hlt
    · exact absurd heq.symm h
    · exact absurd hgt (by rw [String.lt_iff_toList_lt]; simp)

theorem isSortedUniqueFrom_spec (d : RecordData) (previous : String) :
    d.isSortedUniqueFrom previous = true ↔
      (∀ field ∈ d, trimSpace field.name ≠ "" ∧ previous < trimSpace field.name) ∧
        d.Pairwise (fun a b => trimSpace a.name < trimSpace b.name) := by
  induction d generalizing previous with
  | nil => simp [isSortedUniqueFrom]
  | cons field rest ih =>
    simp only [isSortedUniqueFrom, List.mem_cons, forall_eq_or_imp, List.pairwise_cons]
    split_ifs with h
    · simp only [false_iff]
      rintro ⟨⟨⟨h1, h2⟩, -⟩, -⟩
      rcases h with h | h
      · exact h1 h
      · exact h h2
    · rw [not_or, not_not] at h
      rw [ih]
      constructor
      · rintro ⟨hrest, hpair⟩
        exact ⟨⟨h, fun f hf => ⟨(hrest f hf).1, h.2.trans (hrest f hf).2⟩⟩,
          fun f hf => (hrest f hf).2, hpair⟩
      · rintro ⟨⟨-, hrest⟩, hhead, hpair⟩
        exact ⟨fun f hf => ⟨(hrest f hf).1, hhead f hf⟩, hpair⟩

variable {d : RecordData}

theorem isSortedUnique_of_normal (h : Normal d) : d.isSortedUnique = true := by
  rw [isSortedUnique, isSortedUniqueFrom_spec]
  refine ⟨fun field hf => ?_, h.increasing.imp_of_mem fun ha hb hlt => ?_⟩
  · rw [h.trimmed field hf, empty_lt_iff]
    exact ⟨h.nonblank field hf, h.nonblank field hf⟩
  · rwa [h.trimmed _ ha, h.trimmed _ hb]

/-- What the deduplicating loop of `normalize` keeps true of its output so far. -/
structure Distinct (out : RecordData) : Prop where
  trimmed : ∀ field ∈ out, trimSpace field.name = field.name
  nonblank : ∀ field ∈ out, field.name ≠ ""
  nodup : (out.map (·.name)).Nodup

theorem map_replace_names (out : RecordData) (field : RecordField) (name : String) :
    (out.map fun g => if g.name = name then { field with name := name } else g).map (·.name) =
      out.map (·.name) := by
  rw [List.map_map]
  refine List.map_congr_left fun g _ => ?_
  simp only [Function.comp_apply]
  split_ifs with h
  · exact h.symm
  · rfl

theorem putField_distinct {out : RecordData} (h : Distinct out) (field : RecordField) :
    Distinct (putField out field) := by
  unfold putField
  dsimp only
  split_ifs with hblank hmem
  · exact h
  · refine ⟨?_, ?_, by rw [map_replace_names]; exact h.nodup⟩
    all_goals
      intro g hg
      obtain ⟨g', hg', rfl⟩ := List.mem_map.mp hg
      split_ifs
    · simp
    · exact h.trimmed g' hg'
    · exact hblank
    · exact h.nonblank g' hg'
  · refine ⟨?_, ?_, ?_⟩
    · intro g hg
      rcases List.mem_append.mp hg with hg | hg
      · exact h.trimmed g hg
      · rw [List.mem_singleton.mp hg]
        simp
    · intro g hg
      rcases List.mem_append.mp hg with hg | hg
      · exact h.nonblank g hg
      · rw [List.mem_singleton.mp hg]
        exact hblank
    · rw [List.map_append, List.map_singleton, List.nodup_append]
      refine ⟨h.nodup, List.nodup_singleton _, ?_⟩
      intro a ha b hb hab
      obtain ⟨g, hg, rfl⟩ := List.mem_map.mp ha
      rw [List.mem_singleton] at hb
      exact hmem (List.any_eq_true.mpr ⟨g, hg, by simp [hab, hb]⟩)

theorem foldl_putField_distinct (fields out : RecordData) (h : Distinct out) :
    Distinct (fields.foldl putField out) := by
  induction fields generalizing out with
  | nil => exact h
  | cons field rest ih => exact ih _ (putField_distinct h field)

theorem normalize_normal (d : RecordData) : Normal d.normalize := by
  unfold normalize
  split_ifs with h
  · rw [isSortedUnique, isSortedUniqueFrom_spec] at h
    refine ⟨?_, ?_, List.pairwise_map.mpr h.2⟩
    · intro g hg
      obtain ⟨f, -, rfl⟩ := List.mem_map.mp hg
      simp
    · intro g hg
      obtain ⟨f, hf, rfl⟩ := List.mem_map.mp hg
      exact (h.1 f hf).1
  · have hd := foldl_putField_distinct d [] ⟨by simp, by simp, by simp⟩
    have hperm :=
      List.perm_insertionSort (fun a b : RecordField => a.name ≤ b.name) (d.foldl putField [])
    refine ⟨fun g hg => hd.trimmed g (hperm.mem_iff.mp hg),
      fun g hg => hd.nonblank g (hperm.mem_iff.mp hg), ?_⟩
    have hsorted : ((d.foldl putField []).insertionSort fun a b => a.name ≤ b.name).Pairwise
        (fun a b => a.name ≤ b.name) := by
      have : Std.Total (fun a b : RecordField => a.name ≤ b.name) := ⟨fun a b => le_total _ _⟩
      have : IsTrans RecordField (fun a b => a.name ≤ b.name) := ⟨fun a b c => le_trans⟩
      exact List.pairwise_insertionSort _ _
    have hnodup := (hperm.map (·.name)).nodup_iff.mpr hd.nodup
    rw [List.nodup_iff_pairwise_ne, List.pairwise_map] at hnodup
    exact (hsorted.and hnodup).imp fun hab => lt_of_le_of_ne hab.1 hab.2

theorem normalize_of_normal (h : Normal d) : d.normalize = d := by
  rw [normalize, if_pos (isSortedUnique_of_normal h)]
  conv_rhs => rw [← List.map_id d]
  exact List.map_congr_left fun f hf => by rw [h.trimmed f hf]; rfl

theorem mem_foldl_putField (fields out : RecordData) (field : RecordField)
    (hname : trimSpace field.name ≠ "") :
    { field with name := trimSpace field.name } ∈ (fields ++ [field]).foldl putField out := by
  rw [List.foldl_append, List.foldl_cons, List.foldl_nil]
  generalize fields.foldl putField out = out
  unfold putField
  dsimp only
  rw [if_neg hname]
  split_ifs with h
  · obtain ⟨g, hg, hgn⟩ := List.any_eq_true.mp h
    exact List.mem_map.mpr ⟨g, hg, if_pos (by simpa using hgn)⟩
  · exact List.mem_append_right _ (List.mem_singleton.mpr rfl)

theorem mem_withField (d : RecordData) (name : String) (value : RecordValue)
    (h : trimSpace name ≠ "") :
    ⟨trimSpace name, value⟩ ∈ d.withField name value := by
  unfold withField normalize
  split_ifs
  · exact List.mem_map.mpr ⟨⟨name, value⟩, by simp, rfl⟩
  · exact (List.perm_insertionSort _ _).mem_iff.mpr (mem_foldl_putField d [] ⟨name, value⟩ h)

theorem getD_name_lt (h : Normal d) {i j : ℕ} (hij : i < j) (hj : j < d.length) :
    (d.map (·.name)).getD i "" < (d.map (·.name)).getD j "" := by
  rw [List.getD_eq_getElem _ _ (by simpa using hij.trans hj),
    List.getD_eq_getElem _ _ (by simpa using hj),
    List.getElem_map, List.getElem_map]
  exact List.pairwise_iff_getElem.mp h.increasing i j _ hj hij

/-- The binary search finds the position of a field that is there. -/
theorem search_field (h : Normal d) {i : ℕ} {field : RecordField} (hi : d[i]? = some field) :
    search d.length (fun j => field.name ≤ (d.map (·.name)).getD j "") = i := by
  obtain ⟨hlt, rfl⟩ := List.getElem?_eq_some_iff.mp hi
  have hname : (d.map (·.name)).getD i "" = d[i].name := by
    rw [List.getD_eq_getElem _ _ (by simpa using hlt), List.getElem_map]
  obtain ⟨hlo, hhi, -⟩ :=
    search_spec (fun j => decide (d[i].name ≤ (d.map (·.name)).getD j "")) d.length
    (fun a b hab hb ha => by
      rcases hab.lt_or_eq with hab | rfl
      · exact decide_eq_true ((of_decide_eq_true ha).trans (getD_name_lt h hab hb).le)
      · exact ha)
  rcases lt_trichotomy (search d.length fun j => decide (d[i].name ≤ (d.map (·.name)).getD j ""))
    i with
    hs | hs | hs
  · have := of_decide_eq_true (hhi _ le_rfl (hs.trans hlt))
    exact absurd (getD_name_lt h hs hlt) (not_lt.mpr (hname ▸ this))
  · exact hs
  · exact absurd hname.ge (of_decide_eq_false (hlo i hs))

theorem stamp_of_normal (h : Normal d) {organizationID : String}
    (hmem : ⟨"organization_id", stringValue organizationID⟩ ∈ d) :
    normalizeRecordDataWithOrganization d organizationID = d := by
  obtain ⟨i, hi⟩ := List.mem_iff_getElem?.mp hmem
  have hsearch := search_field h hi
  unfold normalizeRecordDataWithOrganization
  simp only [isSortedUnique_of_normal h, if_true] at hsearch ⊢
  rw [hsearch, hi]
  simp [RecordValue.equal, stringValue, RecordValue.scalarIndex]

/-- Data as a store writes it: normalized, then stamped with its organization. -/
theorem stamp_withField (d : RecordData) (organizationID : String) :
    normalizeRecordDataWithOrganization (d.withField "organization_id" (stringValue organizationID))
      organizationID = d.withField "organization_id" (stringValue organizationID) :=
  stamp_of_normal (normalize_normal _) (mem_withField d "organization_id" _ (by decide))

end RecordData

end Foundation
