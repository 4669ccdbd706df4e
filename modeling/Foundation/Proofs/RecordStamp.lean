import Foundation.Sanity.RecordGet

/-! The data that a stored record carries (`hermes/helpers.go`). Where the fields do not come
sorted, `Normalize` brings them into the canonical form before the organization is stamped in; where
they do, they keep their names as they are, and the result is canonical just when those are trimmed.
-/

namespace Foundation.RecordData

open Go

/-- The value of the last field of this trimmed name. -/
def lastValue (d : RecordData) (name : String) : Option RecordValue :=
  ((d.filter fun field => trimSpace field.name == name).getLast?).map (·.value)

/-- What stamped data should be: normalized, with one organization field of the given value, and
every other name as the last field of that name had it. -/
structure Stamped (d : RecordData) (organizationID : String) (out : RecordData) :
  Prop extends Normal out where
  organization : ∃ field, (out.filter fun field => field.name == "organization_id") = [field] ∧
    field.value.kind = .string ∧ field.value.text = organizationID
  others : ∀ name, trimSpace name ≠ "" → trimSpace name ≠ "organization_id" →
    out.get name = d.lastValue (trimSpace name)

theorem lastValue_append (d : RecordData) (field : RecordField) (name : String) :
    lastValue (d ++ [field]) name =
      if trimSpace field.name = name then some field.value else d.lastValue name := by
  unfold lastValue
  rw [List.filter_append]
  by_cases h : trimSpace field.name = name
  · simp [h]
  · simp [h]

/-! ### Normalizing -/

variable {name : String} {d : RecordData}

theorem get_putField {out : RecordData} (h : Distinct out) (field : RecordField)
    (hname : trimSpace name ≠ "") :
    (putField out field).get name =
      if trimSpace field.name = trimSpace name then some field.value else out.get name := by
  have hd := putField_distinct h field
  split_ifs with heq
  · rw [get_eq_some_iff hd.nodup]
    have := mem_foldl_putField [] out field (heq ▸ hname)
    rwa [List.nil_append, List.foldl_cons, List.foldl_nil, heq] at this
  · refine Option.ext fun v => ?_
    rw [get_eq_some_iff hd.nodup, get_eq_some_iff h.nodup]
    unfold putField
    dsimp only
    split_ifs
    · rfl
    · constructor
      · intro hmem
        obtain ⟨g, hg, hgv⟩ := List.mem_map.mp hmem
        split_ifs at hgv
        · exact absurd (congrArg RecordField.name hgv) heq
        · rwa [hgv] at hg
      · intro hmem
        refine List.mem_map.mpr ⟨_, hmem, if_neg (Ne.symm heq)⟩
    · rw [List.mem_append, List.mem_singleton]
      exact ⟨fun hmem => hmem.resolve_right fun hx => heq (congrArg RecordField.name hx).symm, .inl⟩

theorem get_foldl_putField (d : RecordData) (hname : trimSpace name ≠ "") :
    (d.foldl putField []).get name = d.lastValue (trimSpace name) := by
  induction d using List.reverseRecOn with
  | nil => rfl
  | append_singleton d field ih =>
    rw [List.foldl_append, List.foldl_cons, List.foldl_nil,
      get_putField (foldl_putField_distinct d [] ⟨by simp, by simp, by simp⟩) field hname, ih,
      lastValue_append]

theorem putField_trimmed (out : RecordData) (field : RecordField) :
    putField out { field with name := trimSpace field.name } = putField out field := by
  unfold putField
  simp only [trimSpace_trimSpace]

/-- Trimmed fields of increasing names: the deduplicating loop would only trim them. -/
theorem foldl_putField_of_sorted (h : d.isSortedUnique = true) :
    d.foldl putField [] = d.map fun field => { field with name := trimSpace field.name } := by
  have hnormal := normalize_normal d
  rw [normalize, if_pos h] at hnormal
  have hput : (d.map fun field => { field with name := trimSpace field.name }).foldl putField [] =
      d.foldl putField [] := by
    rw [List.foldl_map]
    simp only [putField_trimmed]
  rw [← hput]
  exact @foldl_putField_of_distinct _ [] hnormal.distinct

theorem get_normalize_last (d : RecordData) (hname : trimSpace name ≠ "") :
    d.normalize.get name = d.lastValue (trimSpace name) := by
  rw [← get_foldl_putField d hname]
  have hd := foldl_putField_distinct d [] ⟨by simp, by simp, by simp⟩
  by_cases h : d.isSortedUnique = true
  · rw [normalize, if_pos h, foldl_putField_of_sorted h]
  · refine get_congr (normalize_normal d).distinct.nodup hd.nodup (fun field => ?_) name
    rw [normalize, if_neg h, (List.perm_insertionSort _ _).mem_iff]

/-! ### Stamping -/

theorem pairwise_insert (h : Normal d) (x : RecordField)
    (hfree : ∀ field ∈ d, field.name ≠ x.name) :
    (d.take (search d.length fun i => x.name ≤ (d.map (·.name)).getD i "") ++ x ::
      d.drop (search d.length fun i => x.name ≤ (d.map (·.name)).getD i "")).Pairwise
        (·.name < ·.name) := by
  obtain ⟨hlo, hhi, -⟩ :=
    search_spec (fun i => decide (x.name ≤ (d.map (·.name)).getD i "")) d.length
    (fun a b hab hb ha => by
      rcases hab.lt_or_eq with hab | rfl
      · exact decide_eq_true ((of_decide_eq_true ha).trans (getD_name_lt h hab hb).le)
      · exact ha)
  generalize search d.length (fun i => decide (x.name ≤ (d.map (·.name)).getD i "")) =
    idx at hlo hhi ⊢
  have hget : ∀ i (hi : i < d.length), (d.map (·.name)).getD i "" = d[i].name := by
    intro i hi
    rw [List.getD_eq_getElem _ _ (by simpa using hi), List.getElem_map]
  have hbefore : ∀ a ∈ d.take idx, a.name < x.name := by
    intro a ha
    obtain ⟨i, hi, rfl⟩ := List.getElem_of_mem ha
    rw [List.length_take] at hi
    have := of_decide_eq_false (hlo i (by omega))
    rw [hget i (by omega)] at this
    rw [List.getElem_take]
    exact not_le.mp this
  have hafter : ∀ a ∈ d.drop idx, x.name < a.name := by
    intro a ha
    have hne := hfree a (List.mem_of_mem_drop ha)
    obtain ⟨i, hi, rfl⟩ := List.getElem_of_mem ha
    rw [List.length_drop] at hi
    have := of_decide_eq_true (hhi (idx + i) (by omega) (by omega))
    rw [hget (idx + i) (by omega)] at this
    rw [List.getElem_drop] at hne ⊢
    exact lt_of_le_of_ne this (Ne.symm hne)
  have hd := h.increasing
  rw [← List.take_append_drop idx d, List.pairwise_append] at hd
  refine List.pairwise_append.mpr ⟨hd.1, List.pairwise_cons.mpr ⟨hafter, hd.2.1⟩,
    fun a ha b hb => ?_⟩
  rcases List.mem_cons.mp hb with rfl | hb
  · exact hbefore a ha
  · exact hd.2.2 a ha b hb

theorem normal_stampAt (h : Normal d) (keep : Bool) (orgValue : RecordValue) :
    Normal (d.stampAt keep orgValue) := by
  have hd := distinct_stampAt h keep orgValue
  refine ⟨hd.trimmed, hd.nonblank, ?_⟩
  rcases stampAt_cases h keep orgValue with ⟨i, field, hi, -, ⟨heq, -⟩ | heq⟩ | ⟨-, hfree, -⟩
  · rw [heq]
    exact h.increasing
  · have hnames := h.increasing
    rw [← List.pairwise_map, ← map_name_set hi orgValue, List.pairwise_map] at hnames
    rwa [heq]
  · have hins := pairwise_insert h ⟨"organization_id", orgValue⟩ hfree
    unfold stampAt
    dsimp only
    dsimp only at hins
    generalize search d.length (fun i => decide ("organization_id" ≤ (d.map (·.name)).getD i "")) =
      idx at hins ⊢
    cases hi : d[idx]? with
    | none => exact hins
    | some field =>
      dsimp only
      rw [if_neg (hfree field (List.mem_of_getElem? hi))]
      exact hins

theorem filter_name_of_mem (h : (d.map (·.name)).Nodup) {field : RecordField} (hf : field ∈ d) :
    (d.filter fun g => g.name == field.name) = [field] := by
  obtain ⟨l₁, l₂, rfl⟩ := List.append_of_mem hf
  rw [List.map_append, List.map_cons, List.nodup_middle, List.nodup_cons, ← List.map_append] at h
  have hfree : ∀ l : RecordData, l ⊆ l₁ ++ l₂ → (l.filter fun g => g.name == field.name) = [] := by
    intro l hl
    refine List.filter_eq_nil_iff.mpr fun g hg hname => h.1 ?_
    exact List.mem_map.mpr ⟨g, hl hg, beq_iff_eq.mp hname⟩
  rw [List.filter_append, List.filter_cons, hfree l₁ (List.subset_append_left _ _),
    hfree l₂ (List.subset_append_right _ _)]
  simp

theorem stamped_of_normal {d e : RecordData} (he : Normal e) (keep : Bool) (organizationID : String)
    (hget : ∀ name, trimSpace name ≠ "" → e.get name = d.lastValue (trimSpace name)) :
    Stamped d organizationID (e.stampAt keep (stringValue organizationID)) := by
  have hn := normal_stampAt he keep (stringValue organizationID)
  refine ⟨hn, ?_, fun name hne hname => ?_⟩
  · obtain ⟨v, hv, hkind⟩ := mem_stampAt he keep organizationID
    exact ⟨_, filter_name_of_mem hn.distinct.nodup hv, hkind⟩
  · rw [get_stampAt_of_ne e keep _ hname, hget name hne]

theorem mem_names_stampAt (d : RecordData) (keep : Bool) (orgValue : RecordValue)
    {field : RecordField} (h : field ∈ d) : ∃ g ∈ d.stampAt keep orgValue, g.name = field.name := by
  refine stampAt_rule (P := fun e => ∃ g ∈ e, g.name = field.name) d keep orgValue ⟨field, h, rfl⟩
    (fun i old hi _ => ?_) fun i => ⟨field, ?_, rfl⟩
  · have hname : field.name ∈ (d.set i { old with value := orgValue }).map (·.name) := by
      rw [map_name_set hi]
      exact List.mem_map_of_mem h
    obtain ⟨g, hg, heq⟩ := List.mem_map.mp hname
    exact ⟨g, hg, heq⟩
  · rw [← List.take_append_drop i d] at h
    rcases List.mem_append.mp h with h | h
    · exact List.mem_append_left _ h
    · exact List.mem_append_right _ (List.mem_cons_of_mem _ h)

end Foundation.RecordData

namespace Foundation

open Go RecordData

/-- Stamped data is canonical just when the fields do not pass as sorted with an untrimmed name. -/
theorem normalizeRecordDataWithOrganization_stamped_iff (data : RecordData)
    (organizationID : String) :
    Stamped data organizationID (normalizeRecordDataWithOrganization data organizationID) ↔
      (data.isSortedUnique = true → ∀ field ∈ data, trimSpace field.name = field.name) := by
  rw [stamp_eq]
  by_cases hs : data.isSortedUnique = true
  · rw [if_pos hs]
    constructor
    · intro h _ field hf
      obtain ⟨g, hg, heq⟩ := mem_names_stampAt data true (stringValue organizationID) hf
      rw [← heq]
      exact h.trimmed g hg
    · intro h
      have hn := normal_of_sorted (h hs) hs
      refine stamped_of_normal hn true organizationID fun name hne => ?_
      rw [← get_normalize_last data hne, normalize_of_normal hn]
  · rw [if_neg hs]
    refine ⟨fun _ h => absurd h hs, fun _ => ?_⟩
    exact stamped_of_normal (normalize_normal data) false organizationID fun name hne =>
      get_normalize_last data hne

/-- A padded name passes as sorted and stays padded. -/
theorem padded_name_kept : ¬ Stamped [⟨" name", stringValue "x"⟩] "acme"
    (normalizeRecordDataWithOrganization [⟨" name", stringValue "x"⟩] "acme") := by
  intro h
  have hmem : ∃ field ∈ normalizeRecordDataWithOrganization [⟨" name", stringValue "x"⟩] "acme",
      trimSpace field.name ≠ field.name := by decide +kernel
  obtain ⟨field, hf, hne⟩ := hmem
  exact hne (h.trimmed field hf)

end Foundation
