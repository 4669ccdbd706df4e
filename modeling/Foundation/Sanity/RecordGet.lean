import Foundation.Spec.RecordNormal

/-! What a field reads as after the data is normalized, stamped with its organization or
patched. Data whose names are trimmed, non-blank and distinct keeps all of its fields. -/

namespace Foundation.RecordData

open Go

variable {d : RecordData}

theorem get_eq_some_iff (h : (d.map (·.name)).Nodup) {f : String} {v : RecordValue} :
    d.get f = some v ↔ ⟨trimSpace f, v⟩ ∈ d := by
  induction d with
  | nil => simp [get]
  | cons field rest ih =>
    rw [List.map_cons, List.nodup_cons] at h
    rw [List.mem_cons, get, List.find?_cons]
    by_cases hname : field.name = trimSpace f
    · simp only [hname, beq_self_eq_true, Option.map_some, Option.some_inj]
      constructor
      · rintro rfl
        exact Or.inl (by rw [← hname])
      · rintro (heq | hmem)
        · rw [← heq]
        · exact absurd (List.mem_map.mpr ⟨_, hmem, hname.symm⟩) h.1
    · have hne : (field.name == trimSpace f) = false := beq_eq_false_iff_ne.mpr hname
      simp only [hne]
      rw [show (rest.find? (·.name == trimSpace f)).map (·.value) = RecordData.get rest f from rfl,
        ih h.2]
      exact ⟨Or.inr, fun hmem => hmem.resolve_left fun heq => hname (by rw [← heq])⟩

theorem get_congr {d e : RecordData} (hd : (d.map (·.name)).Nodup) (he : (e.map (·.name)).Nodup)
    (h : ∀ field, field ∈ d ↔ field ∈ e) (f : String) : d.get f = e.get f :=
  Option.ext fun v => by
    rw [get_eq_some_iff hd, get_eq_some_iff he, h]

theorem Normal.distinct (h : Normal d) : Distinct d :=
  ⟨h.trimmed, h.nonblank, List.pairwise_map.mpr (h.increasing.imp fun hlt => hlt.ne)⟩

theorem foldl_putField_of_distinct {fields out : RecordData} (h : Distinct (out ++ fields)) :
    fields.foldl putField out = out ++ fields := by
  induction fields generalizing out with
  | nil => rw [List.foldl_nil, List.append_nil]
  | cons field rest ih =>
    have hmem : field ∈ out ++ field :: rest := List.mem_append_right _ List.mem_cons_self
    have hfresh : ¬ out.any (·.name == field.name) = true := fun hany => by
      obtain ⟨g, hg, hgn⟩ := List.any_eq_true.mp hany
      have hnodup := h.nodup
      rw [List.map_append, List.nodup_append] at hnodup
      exact hnodup.2.2 _ (List.mem_map.mpr ⟨g, hg, rfl⟩) _ (by simp) (beq_iff_eq.mp hgn)
    have hput : putField out field = out ++ [field] := by
      rw [putField, h.trimmed field hmem, if_neg (h.nonblank field hmem), if_neg hfresh]
    rw [List.foldl_cons, hput, ih (by rwa [List.append_assoc]), List.append_assoc]
    rfl

/-! ### Stamping -/

theorem find_insert_other {p : RecordField → Bool} {x : RecordField} (hx : p x = false) (i : ℕ) :
    (d.take i ++ x :: d.drop i).find? p = d.find? p := by
  rw [List.find?_append, List.find?_cons, hx, ← List.find?_append, List.take_append_drop]

theorem find_set_other {p : RecordField → Bool} {old x : RecordField} {i : ℕ}
    (hi : d[i]? = some old) (hold : p old = false) (hx : p x = false) :
    (d.set i x).find? p = d.find? p := by
  induction d generalizing i with
  | nil => rfl
  | cons field rest ih =>
    cases i with
    | zero =>
      obtain rfl : field = old := by simpa using hi
      rw [List.set_cons_zero, List.find?_cons, List.find?_cons, hx, hold]
    | succ i =>
      rw [List.set_cons_succ, List.find?_cons, List.find?_cons]
      rw [ih (by simpa using hi)]

/-- The two branches of the stamp differ only in the data they start from. -/
def stampAt (d : RecordData) (keep : Bool) (orgValue : RecordValue) : RecordData :=
  let idx := search d.length fun i => "organization_id" ≤ (d.map (·.name)).getD i ""
  match d[idx]? with
  | some field =>
    if field.name = "organization_id" then
      if keep && field.value.equal orgValue then d else d.set idx { field with value := orgValue }
    else d.take idx ++ ⟨"organization_id", orgValue⟩ :: d.drop idx
  | none => d.take idx ++ ⟨"organization_id", orgValue⟩ :: d.drop idx

theorem stamp_eq (d : RecordData) (organizationID : String) :
    normalizeRecordDataWithOrganization d organizationID =
      if d.isSortedUnique then d.stampAt true (stringValue organizationID)
      else d.normalize.stampAt false (stringValue organizationID) := by
  by_cases hs : d.isSortedUnique = true
  · rw [if_pos hs]
    cases hd :
      d[search d.length fun i => decide ("organization_id" ≤ (d.map (·.name)).getD i "")]? <;>
      simp only [normalizeRecordDataWithOrganization, stampAt, if_pos hs, hd, Bool.true_and]
  · rw [if_neg hs]
    cases hd : d.normalize[search d.normalize.length fun i =>
        decide ("organization_id" ≤ (d.normalize.map (·.name)).getD i "")]? <;>
      simp only [normalizeRecordDataWithOrganization, stampAt, if_neg hs, hd, Bool.false_and,
        Bool.false_eq_true, if_false]

theorem get_eq_find (d : RecordData) (f : String) :
    d.get f = (d.find? (·.name == trimSpace f)).map (·.value) := rfl

/-- The stamp leaves the data as they are, replaces a value or inserts a field. -/
theorem stampAt_rule {P : RecordData → Prop} (d : RecordData) (keep : Bool) (orgValue : RecordValue)
    (same : P d)
    (replaced : ∀ i field, d[i]? = some field → field.name = "organization_id" →
      P (d.set i { field with value := orgValue }))
    (inserted : ∀ i, P (d.take i ++ ⟨"organization_id", orgValue⟩ :: d.drop i)) :
    P (d.stampAt keep orgValue) := by
  unfold stampAt
  dsimp only
  generalize search d.length (fun i => decide ("organization_id" ≤ (d.map (·.name)).getD i "")) =
    idx
  cases hi : d[idx]? with
  | none => exact inserted idx
  | some field =>
    dsimp only
    split_ifs with hname
    · exact same
    · exact replaced idx field hi hname
    · exact inserted idx

theorem get_stampAt_of_ne (d : RecordData) (keep : Bool) (orgValue : RecordValue) {f : String}
    (hf : trimSpace f ≠ "organization_id") : (d.stampAt keep orgValue).get f = d.get f := by
  have hx : ("organization_id" == trimSpace f) = false := beq_eq_false_iff_ne.mpr hf.symm
  refine stampAt_rule (P := fun e => e.get f = d.get f) d keep orgValue rfl (fun i field hi hname =>
    ?_) fun i => ?_
  · rw [get_eq_find, get_eq_find, find_set_other hi]
    · rw [hname, hx]
    · rw [hname, hx]
  · rw [get_eq_find, get_eq_find, find_insert_other]
    exact hx

/-- Normalized data without an organization field has none at any position. -/
theorem stampAt_cases (h : Normal d) (keep : Bool) (orgValue : RecordValue) :
    (∃ (i : ℕ) (field : RecordField), d[i]? = some field ∧ field.name = "organization_id" ∧
      (d.stampAt keep orgValue = d ∧ field.value.equal orgValue = true ∨
        d.stampAt keep orgValue = d.set i { field with value := orgValue })) ∨
    (∃ i, (∀ field ∈ d, field.name ≠ "organization_id") ∧
      d.stampAt keep orgValue = d.take i ++ ⟨"organization_id", orgValue⟩ :: d.drop i) := by
  by_cases hmem : ∃ field ∈ d, field.name = "organization_id"
  · obtain ⟨field, hfield, hname⟩ := hmem
    obtain ⟨i, hi⟩ := List.mem_iff_getElem?.mp hfield
    have hsearch := search_field h hi
    rw [hname] at hsearch
    refine .inl ⟨i, field, hi, hname, ?_⟩
    unfold stampAt
    dsimp only
    rw [hsearch, hi]
    dsimp only
    rw [if_pos hname]
    split_ifs with hkeep
    · exact .inl ⟨rfl, (Bool.and_eq_true_iff.mp hkeep).2⟩
    · exact .inr rfl
  · push Not at hmem
    refine .inr ⟨search d.length fun i => "organization_id" ≤ (d.map (·.name)).getD i "", hmem, ?_⟩
    unfold stampAt
    dsimp only
    cases hi :
      d[search d.length fun i => decide ("organization_id" ≤ (d.map (·.name)).getD i "")]? with
    | none => rfl
    | some field =>
      dsimp only
      rw [if_neg (hmem field (List.mem_of_getElem? hi))]

theorem map_name_set {i : ℕ} {field : RecordField} (hi : d[i]? = some field) (value : RecordValue) :
    (d.set i { field with value := value }).map (·.name) = d.map (·.name) := by
  obtain ⟨hlt, rfl⟩ := List.getElem?_eq_some_iff.mp hi
  have hname : (d.map (·.name))[i]? = some d[i].name := by
    rw [List.getElem?_map, hi, Option.map_some]
  obtain ⟨hlt', hget⟩ := List.getElem?_eq_some_iff.mp hname
  rw [List.map_set, ← hget, List.set_getElem_self]

theorem distinct_stampAt (h : Normal d) (keep : Bool) (orgValue : RecordValue) :
    Distinct (d.stampAt keep orgValue) := by
  rcases stampAt_cases h keep orgValue with ⟨i, field, hi, hname, ⟨heq, -⟩ | heq⟩ | ⟨i, hfree, heq⟩
  · rw [heq]
    exact h.distinct
  · have hfield := List.mem_of_getElem? hi
    have hmem : ∀ g ∈ d.set i { field with value := orgValue }, g ∈ d ∨
      g = { field with value := orgValue } :=
      fun g hg => List.mem_or_eq_of_mem_set hg
    rw [heq]
    refine ⟨fun g hg => ?_, fun g hg => ?_, by rw [map_name_set hi]; exact h.distinct.nodup⟩
    · rcases hmem g hg with hg | rfl
      · exact h.trimmed g hg
      · exact h.trimmed field hfield
    · rcases hmem g hg with hg | rfl
      · exact h.nonblank g hg
      · exact h.nonblank field hfield
  · have hperm : (d.take i ++ ⟨"organization_id", orgValue⟩ :: d.drop i).Perm
        (⟨"organization_id", orgValue⟩ :: d) := by
      refine List.perm_middle.trans ?_
      rw [List.take_append_drop]
    rw [heq]
    refine ⟨fun g hg => ?_, fun g hg => ?_, ?_⟩
    · rcases List.mem_cons.mp (hperm.mem_iff.mp hg) with rfl | hg
      · exact (by decide : trimSpace "organization_id" = "organization_id")
      · exact h.trimmed g hg
    · rcases List.mem_cons.mp (hperm.mem_iff.mp hg) with rfl | hg
      · exact (by decide : "organization_id" ≠ "")
      · exact h.nonblank g hg
    · rw [(hperm.map (·.name)).nodup_iff, List.map_cons, List.nodup_cons]
      refine ⟨fun hm => ?_, h.distinct.nodup⟩
      obtain ⟨g, hg, hgn⟩ := List.mem_map.mp hm
      exact hfree g hg hgn

theorem normal_of_sorted (h : ∀ field ∈ d, trimSpace field.name = field.name)
    (hs : d.isSortedUnique = true) : Normal d := by
  rw [isSortedUnique, isSortedUniqueFrom_spec] at hs
  refine ⟨h, fun field hf => h field hf ▸ (hs.1 field hf).1, hs.2.imp_of_mem fun ha hb hlt => ?_⟩
  rwa [h _ ha, h _ hb] at hlt

theorem equal_stringValue {v : RecordValue} {text : String}
    (h : v.equal (stringValue text) = true) : v.kind = .string ∧ v.text = text := by
  unfold RecordValue.equal stringValue RecordValue.scalarIndex at h
  cases hk : v.kind with
  | bool =>
    rw [hk] at h
    dsimp only at h
    split_ifs at h <;> simp at h
  | _ => simp_all

theorem mem_stampAt (h : Normal d) (keep : Bool) (organizationID : String) :
    ∃ v : RecordValue, ⟨"organization_id", v⟩ ∈ d.stampAt keep (stringValue organizationID) ∧
      v.kind = .string ∧ v.text = organizationID := by
  rcases stampAt_cases h keep (stringValue organizationID) with
    ⟨i, field, hi, hname, ⟨heq, hequal⟩ | heq⟩ | ⟨i, -, heq⟩
  · refine ⟨field.value, ?_, equal_stringValue hequal⟩
    rw [heq, ← hname]
    exact List.mem_of_getElem? hi
  · refine ⟨stringValue organizationID, ?_, rfl, rfl⟩
    obtain ⟨hlt, -⟩ := List.getElem?_eq_some_iff.mp hi
    rw [heq]
    exact hname ▸ List.mem_set hlt _
  · refine ⟨stringValue organizationID, ?_, rfl, rfl⟩
    rw [heq]
    exact List.mem_append_right _ List.mem_cons_self

end Foundation.RecordData
