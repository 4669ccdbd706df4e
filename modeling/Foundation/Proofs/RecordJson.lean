import Foundation.Lib.Unquote
import Foundation.Proofs.Decoding
import Foundation.Spec.RecordJson

/-! Record data survive their JSON text exactly when each of their values does: the fields are
spelled as the members of an object, the visiting loop reads them back in order, and a value's kind
is what its text says. -/

namespace Foundation.RecordJson

open Json (Tree Delimited Spells Text Space quotationMark nameSeparator valueSeparator beginObject
  endObject nullText
  boolText expect readMembers readValue quoted)
open Strconv (goString quoteBody appendInt)
open ExtensionJson (Std interpret interpretField ReadsMembers fieldRound_follows follows
  consumeByte skipSpace)

/-! ### The visiting loop -/

variable {ms : List (Bytes × Tree)} {t : Bytes} {T : Tree}

section
variable {std : Std} {size : ℕ}

/-- The loop visits the members that the reader reads, in their order. -/
theorem visitFields_follows (fuel : ℕ) (out : List (Bytes × ExtensionJson.Value)) (s : Bytes) :
    (visitFields std size fuel out s).toOption =
      (readMembers fuel s).bind fun r => (r.1.mapM (interpretField std)).map fun fields =>
        (out ++ fields, r.2) := by
  have hloop : ReadsMembers (fun out f => out ++ [f]) (visitFields std size fuel) std fuel := by
    induction fuel with
    | zero => exact fun _ _ => rfl
    | succ fuel ih =>
      intro out s
      rw [← fieldRound_follows "extension object fields must be separated by ','"
        (follows std size fuel) ih, visitFields]
      rfl
  simp only [hloop out s, List.foldl_append_eq_append, ← List.flatMap_def, List.flatMap_singleton']

/-- The visited fields of an object text are its members as Go reads them. -/
theorem forEachObjectField_members (ht : Spells Delimited (.members ms) t)
    (htrim : trimBytes (beginObject :: (t ++ [endObject])) = beginObject :: (t ++ [endObject])) :
    (forEachObjectField std (beginObject :: (t ++ [endObject]))).toOption =
      ms.mapM (interpretField std) := by
  have hopen : expect beginObject (Json.skipSpace (beginObject :: (t ++ [endObject]))) =
      some (t ++ [endObject]) := by
    rw [Json.skipSpace_cons (by decide), Json.expect_self]
  have hread := ht.reads (fun _ h => h) (2 * (beginObject :: (t ++ [endObject])).length) []
    (by simp only [List.length_cons, List.length_append]; omega)
  rw [forEachObjectField, htrim]
  simp only [if_neg (List.cons_ne_nil _ _), consumeByte, skipSpace, hopen,
    Json.spells_members_head ht, toOption_bind,
    visitFields_follows, Json.readMembers_skipSpace, hread, Option.bind_some]
  cases ms.mapM (interpretField std) with
  | none => rfl
  | some fields => simp [Json.skipSpace, Except.toOption]

end

/-! ### Values -/

theorem text_of_spells (h : Spells Delimited (.value T) t) : Text Delimited t T :=
  have hspace : Space [] := fun b hb => absurd hb List.not_mem_nil
  ⟨[], t, [], hspace, h, hspace, by simp⟩

theorem trimBytes_of_ends (h : (∃ c r, t = c :: r ∧ Json.Visible c) ∧ Json.VisibleEnd t) :
    trimBytes t = t := by
  obtain ⟨⟨c, r, rfl, hc⟩, hend⟩ := h
  rw [trimBytes, ExtensionJson.trimLeftBytes_visible hc, ExtensionJson.trimRightBytes_visible hend]

theorem equal_of_index {v w : Value} {a b : Char × Bytes} (hv : v.scalarIndex = some a)
    (hw : w.scalarIndex = some b) :
    v.equal w = true ↔ a = b := by
  rw [Value.equal, hv, hw]
  exact beq_iff_eq

theorem equal_of_kind_ne {v w : Value} (hv : v.scalarIndex = none) (h : v.kind ≠ w.kind) :
    v.equal w = false := by
  rw [Value.equal, hv]
  exact if_pos h

section values
variable {std : FloatStd}

/-- A number comes back as an int when its text is one, and else as a float. -/
theorem interpret_number {w : ExtensionJson.Value} (h : interpret std.toStd (.number t) = some w) :
    (∃ i, Strconv.parseInt t = some i ∧ w = .int i) ∨
      (Strconv.parseInt t = none ∧ ∃ f, std.parseFloat t = .ok f ∧ w = .float f) := by
  have hvalue : ExtensionJson.valueFromJSONNumber std.toStd t = .ok w := toOption_eq_some.mp h
  rw [ExtensionJson.valueFromJSONNumber] at hvalue
  cases hp : Strconv.parseInt t with
  | some i =>
    rw [hp] at hvalue
    exact .inl ⟨i, rfl, (Except.ok.inj hvalue).symm⟩
  | none =>
    rw [hp] at hvalue
    simp only at hvalue
    cases hf : std.parseFloat t with
    | error e =>
      rw [hf] at hvalue
      cases hvalue
    | ok f =>
      rw [hf] at hvalue
      exact .inr ⟨rfl, f, rfl, (Except.ok.inj hvalue).symm⟩

theorem interpret_ne_bytes {b : Bytes} : interpret std.toStd T ≠ some (.bytes b) := by
  intro h
  cases T with
  | null => cases h
  | bool c => cases h
  | number t =>
    rcases interpret_number h with ⟨i, -, hw⟩ | ⟨-, f, -, hw⟩
    · cases hw
    · cases hw
  | string body =>
    obtain ⟨s, -, hs⟩ :=
      Option.map_eq_some_iff.mp (show (goString body).map ExtensionJson.Value.string = _ from h)
    cases hs
  | array items =>
    rw [ExtensionJson.interpret_array] at h
    obtain ⟨vs, -, hvs⟩ := Option.map_eq_some_iff.mp h
    cases hvs
  | object members =>
    rw [ExtensionJson.interpret_object] at h
    obtain ⟨fields, -, hfields⟩ := Option.map_eq_some_iff.mp h
    cases hfields

/-- A value is written as some JSON text, and survives when what Go reads from the text is equal to
it. -/
def Comes (std : Std) (v : Value) (t : Bytes) (T : Tree) : Prop :=
  v.marshalJSON std = some t ∧ Text Delimited t T ∧
    (Survives std v ↔ ∃ w, interpret std T = some w ∧
      v.equal (recordValueFromExtension std w) = true)

theorem comes_string (s : Bytes) :
    Comes std.toStd (stringValue s) (quoted (quoteBody std.printable s))
      (.string (quoteBody std.printable s)) := by
  refine ⟨rfl, text_of_spells (.string (Strconv.quoteBody_delimited _ s)),
    iff_of_true trivial ⟨.string s, ?_, ?_⟩⟩
  · exact congrArg (Option.map ExtensionJson.Value.string)
      (Strconv.goString_quoteBody std.printable s)
  · exact (equal_of_index rfl rfl).mpr rfl

theorem comes_int {i : ℤ} (hlo : -2 ^ 63 ≤ i) (hhi : i < 2 ^ 63) :
    Comes std.toStd (intValue i) (appendInt [] i) (.number (appendInt [] i)) := by
  obtain ⟨t, ht, hn, hi⟩ := Strconv.appendInt_spec [] i
  rw [List.nil_append] at ht
  have hvalue := ExtensionJson.FitsInt64.value std.toStd hi hlo hhi
  have htrim := trimBytes_of_ends hn.ends
  have hparse : Strconv.parseInt t = some i := by
    rcases interpret_number (toOption_eq_some.mpr hvalue) with ⟨j, hj, hw⟩ | ⟨-, f, -, hw⟩
    · rw [hj, (ExtensionJson.Value.int.inj hw).symm]
    · cases hw
  refine ⟨?_, ?_, iff_of_true trivial ⟨.int i, ?_, (equal_of_index rfl rfl).mpr rfl⟩⟩
  · change (Strconv.parseInt (trimBytes (appendInt [] i))).map _ = _
    rw [ht, htrim, hparse]
    simp only [intValue, ht, htrim, Option.map_some]
  · rw [ht]
    exact text_of_spells (.number hn)
  · rw [ht]
    exact toOption_eq_some.mpr hvalue

theorem comes_uint {k : ℕ} (hk : k < 2 ^ 64) :
    Comes std.toStd (uintValue k) (Strconv.decimal k) (.number (Strconv.decimal k)) := by
  have hn := (Strconv.decimal_isNumber k).1
  have htrim := trimBytes_of_ends hn.ends
  refine ⟨?_, text_of_spells (.number hn), iff_of_false id ?_⟩
  · change (parseUint (trimBytes (Strconv.decimal k))).map
      (fun _ => trimBytes (Strconv.decimal k)) = _
    rw [htrim, parseUint, Strconv.natural?_decimal, Option.filter_some, if_pos (decide_eq_true hk),
      Option.map_some]
  · rintro ⟨w, hw, heq⟩
    rcases interpret_number hw with ⟨i, -, rfl⟩ | ⟨-, f, -, rfl⟩
    · exact absurd ((equal_of_index rfl rfl).mp heq) (by simp)
    · exact absurd ((equal_of_index rfl rfl).mp heq) (by simp)

theorem comes_float {f : Binary64} (hnan : f.isNaN = false) (hinf : f.isInf = false) :
    Comes std.toStd (floatValue std.toStd f) (std.formatFloat f) (.number (std.formatFloat f)) := by
  have hn := std.format_number f hnan hinf
  have htrim := trimBytes_of_ends hn.ends
  obtain ⟨g, hg, hformat⟩ := std.parse_format f hnan hinf
  refine ⟨?_, text_of_spells (.number hn), ?_⟩
  · change (std.parseFloat (trimBytes (std.formatFloat f))).toOption.map
      (fun _ => trimBytes (std.formatFloat f)) = _
    rw [htrim, hg]
    rfl
  change Strconv.parseInt (std.formatFloat f) = none ↔ _
  constructor
  · intro hnone
    refine ⟨.float g, ?_, (equal_of_index rfl rfl).mpr ?_⟩
    · refine toOption_eq_some.mpr ?_
      rw [ExtensionJson.valueFromJSONNumber, hnone]
      simp only [hg]
      rfl
    · change ('f', trimBytes (std.formatFloat f)) = ('f', trimBytes (std.formatFloat g))
      rw [hformat]
  · rintro ⟨w, hw, heq⟩
    rcases interpret_number hw with ⟨i, -, rfl⟩ | ⟨hnone, -⟩
    · exact absurd ((equal_of_index rfl rfl).mp heq) (by simp)
    · exact hnone

/-- A raw value is equal to what comes back when that is a collection encoded as the value is
written. -/
theorem raw_equal_iff (ht : trimBytes t = t) {w : ExtensionJson.Value} (hw : ∀ b, w ≠ .bytes b) :
    ({ kind := .raw, raw := t } : Value).equal (recordValueFromExtension std.toStd w) = true ↔
      isCollection w = true ∧ rawValue (ExtensionJson.marshalJSON std.toStd w) =
        { kind := .raw, raw := t } := by
  have hraw : ∀ m : Bytes, ({ kind := .raw, raw := t } : Value).equal (rawValue m) = true ↔
      rawValue m = { kind := .raw, raw := t } := by
    intro m
    unfold rawValue
    split_ifs with hm
    · exact iff_of_false (by rw [equal_of_kind_ne rfl (by simp)]; simp) (by simp)
    · change (trimBytes t == trimBytes (trimBytes m)) = true ↔ _
      rw [beq_iff_eq, ht, trimBytes_trimBytes, Value.mk.injEq]
      exact ⟨fun h => ⟨rfl, rfl, h.symm⟩, fun h => h.2.2.symm⟩
  have hscalar : ∀ v : Value, v.kind ≠ .raw →
      ({ kind := .raw, raw := t } : Value).equal v ≠ true := by
    intro v hv
    rw [equal_of_kind_ne rfl (Ne.symm hv)]
    simp
  cases w with
  | list items => exact (hraw _).trans (and_iff_right rfl).symm
  | object fields => exact (hraw _).trans (and_iff_right rfl).symm
  | bytes b => exact absurd rfl (hw b)
  | null =>
    exact iff_of_false (hscalar _ (by simp [recordValueFromExtension])) (by simp [isCollection])
  | string s =>
    exact iff_of_false (hscalar _ (by simp [recordValueFromExtension, stringValue]))
      (by simp [isCollection])
  | bool b =>
    exact iff_of_false (hscalar _ (by simp [recordValueFromExtension, boolValue]))
      (by simp [isCollection])
  | int i =>
    exact iff_of_false (hscalar _ (by simp [recordValueFromExtension, intValue]))
      (by simp [isCollection])
  | uint u =>
    exact iff_of_false (hscalar _ (by simp [recordValueFromExtension, uintValue]))
      (by simp [isCollection])
  | float f =>
    exact iff_of_false (hscalar _ (by simp [recordValueFromExtension, floatValue]))
      (by simp [isCollection])

theorem comes_raw {b : Bytes} (h : Text Delimited b T) :
    Comes std.toStd (rawValue b) (trimBytes b) T := by
  have htext := ExtensionJson.Text.trim h
  have hne : trimBytes b ≠ [] := by
    obtain ⟨w, core, w', -, hcore, -, heq⟩ := htext
    obtain ⟨⟨c, r, rfl, -⟩, -⟩ := hcore.ends
    rw [heq]
    simp
  have hval : rawValue b = { kind := .raw, raw := trimBytes b } := if_neg hne
  have hidem := trimBytes_trimBytes b
  rw [hval]
  refine ⟨?_, htext, ?_⟩
  · change some (if trimBytes (trimBytes b) = [] then nullText else trimBytes (trimBytes b)) = _
    rw [hidem, if_neg hne]
  change (∃ w, ExtensionJson.decodeValueBytes std.toStd (trimBytes b) = .ok w ∧
    isCollection w = true ∧ _) ↔ _
  constructor
  · rintro ⟨w, hdecode, hw⟩
    obtain ⟨T', hT', hinterpret⟩ := ExtensionJson.decodeValueBytes_eq_ok.mp hdecode
    rw [hidem] at hT'
    obtain rfl := htext.unique (fun _ h => h) (fun _ h => h) hT'
    refine ⟨w, hinterpret, (raw_equal_iff hidem ?_).mpr hw⟩
    rintro c rfl
    exact interpret_ne_bytes hinterpret
  · rintro ⟨w, hinterpret, heq⟩
    refine ⟨w, ExtensionJson.decodeValueBytes_eq_ok.mpr ⟨T, by rwa [hidem], hinterpret⟩,
      (raw_equal_iff hidem ?_).mp heq⟩
    rintro c rfl
    exact interpret_ne_bytes hinterpret

theorem Constructed.comes {v : Value} (h : Constructed std.toStd v) :
    ∃ t T, Comes std.toStd v t T := by
  cases h with
  | null => exact ⟨_, _, rfl, text_of_spells .null, iff_of_true trivial ⟨.null, rfl, rfl⟩⟩
  | string s => exact ⟨_, _, comes_string s⟩
  | bool b =>
    refine ⟨_, _, rfl, text_of_spells (.bool _), iff_of_true trivial ⟨.bool _, rfl, ?_⟩⟩
    cases b <;> exact (equal_of_index rfl rfl).mpr rfl
  | int hlo hhi => exact ⟨_, _, comes_int hlo hhi⟩
  | uint hk => exact ⟨_, _, comes_uint hk⟩
  | float hnan hinf => exact ⟨_, _, comes_float hnan hinf⟩
  | raw h => exact ⟨_, _, comes_raw h⟩

/-! ### Data -/

def Spelled (std : Std) (field : Bytes × Value) (m : Bytes × Tree) : Prop :=
  m.1 = quoteBody std.printable field.1 ∧ ∃ t, Comes std field.2 t m.2

theorem exists_members {d : Data} (h : ∀ field ∈ d, Constructed std.toStd field.2) :
    ∃ ms, List.Forall₂ (Spelled std.toStd) d ms := by
  induction d with
  | nil => exact ⟨[], .nil⟩
  | cons field d ih =>
    obtain ⟨t, T, ht⟩ := (h field List.mem_cons_self).comes
    obtain ⟨ms, hms⟩ := ih fun g hg => h g (List.mem_cons_of_mem _ hg)
    exact ⟨(_, T) :: ms, .cons ⟨rfl, t, ht⟩ hms⟩

/-- The marshalling loop spells the fields as the members of an object. -/
theorem marshalFields_spells {field : Bytes × Value} {rest : Data}
    (h : List.Forall₂ (Spelled std.toStd) (field :: rest) ms) (first : Bool) (b : Bytes) :
    ∃ t, marshalFields std.toStd first b (field :: rest) =
      some ((if first then b else b ++ [valueSeparator]) ++ t) ∧
      Spells Delimited (.members ms) t := by
  have hspace : Space [] := fun b hb => absurd hb List.not_mem_nil
  induction rest generalizing field ms first b with
  | nil =>
    obtain _ | @⟨_, m, _, _, ⟨hkey, t, hmarshal, ⟨w, core, w', hw, hcore, hw', rfl⟩, -⟩, hrest⟩ := h
    cases hrest
    obtain ⟨k, T⟩ := m
    obtain rfl : k = _ := hkey
    refine ⟨_, ?_, Spells.member hspace (Strconv.quoteBody_delimited _ field.1) hspace hw hcore hw'⟩
    rw [marshalFields, hmarshal, Option.bind_some, marshalFields, Strconv.appendQuote]
    simp
  | cons next rest ih =>
    obtain _ | @⟨_, m, _, ms, ⟨hkey, t, hmarshal, ⟨w, core, w', hw, hcore, hw', rfl⟩, -⟩, hrest⟩ :=
      h
    obtain ⟨k, T⟩ := m
    obtain rfl : k = _ := hkey
    obtain ⟨t', ht', hspells⟩ := ih hrest false (Strconv.appendQuote std.printable
      (if first then b else b ++ [valueSeparator]) field.1 ++ nameSeparator :: (w ++ (core ++ w')))
    refine ⟨_, ?_, Spells.members hspace (Strconv.quoteBody_delimited _ field.1) hspace hw
      hcore hw' hspells⟩
    rw [marshalFields, hmarshal, Option.bind_some, ht', Strconv.appendQuote]
    simp

theorem interpretField_spelled {field : Bytes × Value} {m : Bytes × Tree}
    (h : Spelled std.toStd field m) :
    interpretField std.toStd m = (interpret std.toStd m.2).map fun w => (field.1, w) := by
  rw [interpretField, h.1, Strconv.goString_quoteBody, Option.bind_some]

/-- The members are read back under the names of the fields, with the values that Go reads. -/
theorem mapM_spelled {d : Data} (h : List.Forall₂ (Spelled std.toStd) d ms)
    {fields : List (Bytes × ExtensionJson.Value)} :
    ms.mapM (interpretField std.toStd) = some fields ↔
      fields.map (·.1) = d.map (·.1) ∧
        List.Forall₂ (fun m f => interpret std.toStd m.2 = some f.2) ms fields := by
  induction h generalizing fields with
  | nil =>
    simp only [List.mapM_nil, Option.pure_def, Option.some.injEq]
    constructor
    · rintro rfl
      exact ⟨rfl, .nil⟩
    · rintro ⟨-, h⟩
      cases h
      rfl
  | cons hm _ ih =>
    rw [List.mapM_cons, interpretField_spelled hm]
    constructor
    · intro hmap
      obtain ⟨w, hw, hmap⟩ := Option.bind_eq_some_iff.mp hmap
      obtain ⟨v, hv, rfl⟩ := Option.map_eq_some_iff.mp hw
      obtain ⟨ws, hws, heq⟩ := Option.bind_eq_some_iff.mp hmap
      cases heq
      obtain ⟨hnames, hvalues⟩ := ih.mp hws
      exact ⟨congrArg (_ :: ·) hnames, .cons hv hvalues⟩
    · rintro ⟨hnames, hvalues⟩
      obtain _ | @⟨_, f, _, fs, hv, hvs⟩ := hvalues
      obtain ⟨hname, hnames⟩ := List.cons.inj hnames
      rw [hv, ih.mpr ⟨hnames, hvs⟩]
      obtain ⟨name, v⟩ := f
      obtain rfl : name = _ := hname
      rfl

theorem isSorted_of_pairwise {d : Data} (prevKey : Option Bytes)
    (hprev : ∀ key ∈ prevKey, ∀ field ∈ d, Json.keyLess key field.1)
    (hnames : ∀ field ∈ d, field.1 ≠ [] ∧ field.1 = trimBytes field.1)
    (hpair : d.Pairwise fun a b => Json.keyLess a.1 b.1) : isSorted prevKey d = true := by
  induction d generalizing prevKey with
  | nil => rfl
  | cons field rest ih =>
    obtain ⟨hhead, htail⟩ := List.pairwise_cons.mp hpair
    rw [isSorted, Bool.and_eq_true]
    refine ⟨decide_eq_true ⟨fun key hkey => hprev key hkey field List.mem_cons_self,
      hnames field List.mem_cons_self⟩, ?_⟩
    refine ih (some field.1) ?_ (fun g hg => hnames g (List.mem_cons_of_mem _ hg)) htail
    rintro key ⟨⟩ g hg
    exact hhead g hg

theorem normal_map_names {d e : Data} (h : d.map (·.1) = e.map (·.1)) (hd : naming.Normal d) :
    naming.Normal e := by
  have hmem : ∀ field ∈ e, ∃ g ∈ d, g.1 = field.1 := by
    intro field hf
    exact List.mem_map.mp (h ▸ List.mem_map_of_mem hf : field.1 ∈ d.map (·.1))
  refine ⟨fun field hf => ?_, fun field hf => ?_, ?_⟩
  · obtain ⟨g, hg, hname⟩ := hmem field hf
    have htrim : trimBytes g.1 = g.1 := congrArg Prod.fst (hd.trimmed g hg)
    exact Prod.ext (show trimBytes field.1 = field.1 by rw [← hname]; exact htrim) rfl
  · obtain ⟨g, hg, hname⟩ := hmem field hf
    have := hd.nonblank g hg
    exact fun hblank => this (by rw [← hblank]; exact congrArg (List.map UInt8.toNat) hname)
  · have hpair : (d.map (·.1)).Pairwise Json.keyLess := List.pairwise_map.mpr hd.increasing
    rw [h] at hpair
    have hnames : e.Pairwise fun a b => Json.keyLess a.1 b.1 := List.pairwise_map.mp hpair
    exact hnames

theorem isSorted_of_normal {d : Data} (h : naming.Normal d) : isSorted none d = true := by
  refine isSorted_of_pairwise none (fun key hkey => by cases hkey)
    (fun field hf => ⟨?_, ?_⟩) h.increasing
  · intro hnil
    exact h.nonblank field hf (congrArg (List.map UInt8.toNat) hnil)
  · exact (congrArg Prod.fst (h.trimmed field hf)).symm

/-- What the text of some fields decodes to, in terms of what Go reads from their members. -/
theorem unmarshal_spelled {d : Data} (hnormal : naming.Normal d) (hne : d ≠ [])
    (hms : List.Forall₂ (Spelled std.toStd) d ms) :
    ∃ text, (marshalFields std.toStd true [beginObject] d).map (· ++ [endObject]) = some text ∧
      ∀ back, unmarshalJSON std.toStd text = .ok back ↔
        ∃ fields : List (Bytes × ExtensionJson.Value), fields.map (·.1) = d.map (·.1) ∧
          List.Forall₂ (fun m f => interpret std.toStd m.2 = some f.2) ms fields ∧
          back = fields.map fun f => (f.1, recordValueFromExtension std.toStd f.2) := by
  obtain ⟨field, rest, rfl⟩ := List.exists_cons_of_ne_nil hne
  obtain ⟨t, ht, hspells⟩ := marshalFields_spells hms true [beginObject]
  have hends := (Spells.object hspells).ends
  have htrim := trimBytes_of_ends hends
  refine ⟨beginObject :: (t ++ [endObject]), by rw [ht]; rfl, fun back => ?_⟩
  have hlast : (beginObject :: (t ++ [endObject])).getLast? = some endObject := by
    rw [← List.cons_append, List.getLast?_concat]
  have hnull : ¬ (beginObject :: (t ++ [endObject]) = [] ∨
      beginObject :: (t ++ [endObject]) = nullText) := by
    rintro (h | h)
    · cases h
    · exact absurd (List.cons.inj h).1 (by decide)
  rw [unmarshalJSON, htrim]
  simp only
  rw [if_neg hnull, if_neg (by simp [hlast]), ← toOption_eq_some, toOption_bind,
    forEachObjectField_members hspells htrim, Option.bind_eq_some_iff]
  constructor
  · rintro ⟨fields, hfields, hback⟩
    obtain ⟨hnames, hvalues⟩ := (mapM_spelled hms).mp hfields
    refine ⟨fields, hnames, hvalues, ?_⟩
    have hnormal' :=
      normal_map_names (e := fields.map fun f => (f.1, recordValueFromExtension std.toStd f.2))
      (by rw [List.map_map]; exact hnames.symm) hnormal
    have hok := Option.some.inj hback
    rw [if_pos (isSorted_of_normal hnormal')] at hok
    exact hok.symm
  · rintro ⟨fields, hnames, hvalues, rfl⟩
    refine ⟨fields, (mapM_spelled hms).mpr ⟨hnames, hvalues⟩, ?_⟩
    have hnormal' :=
      normal_map_names (e := fields.map fun f => (f.1, recordValueFromExtension std.toStd f.2))
      (by rw [List.map_map]; exact hnames.symm) hnormal
    rw [if_pos (isSorted_of_normal hnormal')]
    rfl

/-- Every field survives exactly when the members can be read and what is read is equal, field by
field. -/
theorem survive_iff {d : Data} (hms : List.Forall₂ (Spelled std.toStd) d ms) :
    (∀ field ∈ d, Survives std.toStd field.2) ↔
      ∃ fields : List (Bytes × ExtensionJson.Value), fields.map (·.1) = d.map (·.1) ∧
        List.Forall₂ (fun m f => interpret std.toStd m.2 = some f.2) ms fields ∧
        List.Forall₂ (fun field other => field.1 = other.1 ∧ field.2.equal other.2 = true) d
          (fields.map fun f => (f.1, recordValueFromExtension std.toStd f.2)) := by
  induction hms with
  | nil => exact iff_of_true (fun field hf => absurd hf List.not_mem_nil) ⟨[], rfl, .nil, .nil⟩
  | @cons field m d ms hm _ ih =>
    obtain ⟨-, t, -, -, hsurvives⟩ := hm
    rw [List.forall_mem_cons, hsurvives, ih]
    constructor
    · rintro ⟨⟨w, hw, heq⟩, fields, hnames, hvalues, hequal⟩
      exact ⟨(field.1, w) :: fields, congrArg (_ :: ·) hnames, .cons hw hvalues,
        .cons ⟨rfl, heq⟩ hequal⟩
    · rintro ⟨fields, hnames, hvalues, hequal⟩
      obtain _ | @⟨_, f, _, fs, hw, hws⟩ := hvalues
      obtain _ | @⟨_, _, _, _, ⟨-, heq⟩, hequal⟩ := hequal
      exact ⟨⟨f.2, hw, heq⟩, fs, (List.cons.inj hnames).2, hws, hequal⟩

end values

theorem normalize_constructed {std : Std} (d : BuiltData std) :
    ∀ field ∈ normalize d.fields, Constructed std field.2 := by
  intro field hf
  obtain ⟨g, hg, rfl⟩ := Naming.mem_normalize hf
  exact d.constructed g hg

/-- Data without a name left is written as the empty object, which is read as no data. -/
theorem round_trip_empty (std : Std) {d : Data} (h : normalize d = []) : RoundTrips std d := by
  refine ⟨[beginObject, endObject], [], ?_, rfl, ?_⟩
  · rw [marshalJSON, h]
    split_ifs <;> rfl
  · rw [h]
    exact .nil

/-- Record data round trip exactly when each value of their normal form survives. -/
theorem round_trip_iff_survives (std : FloatStd) (d : BuiltData std.toStd) :
    RoundTrips std.toStd d.fields ↔ ∀ field ∈ normalize d.fields, Survives std.toStd field.2 := by
  by_cases hne : normalize d.fields = []
  · refine iff_of_true (round_trip_empty std.toStd hne) ?_
    rw [hne]
    exact fun field hf => absurd hf List.not_mem_nil
  obtain ⟨ms, hms⟩ := exists_members (normalize_constructed d)
  have hnormal : naming.Normal (normalize d.fields) := Naming.normalize_normal d.fields
  obtain ⟨text, htext, hback⟩ := unmarshal_spelled hnormal hne hms
  have hmarshal : marshalJSON std.toStd d.fields = some text := by
    rw [marshalJSON, if_neg, htext]
    intro hnil
    exact hne (by rw [hnil]; rfl)
  have hsame : ∀ fields : List (Bytes × ExtensionJson.Value),
      fields.map (·.1) = (normalize d.fields).map (·.1) →
      normalize (fields.map fun f => (f.1, recordValueFromExtension std.toStd f.2)) =
        fields.map fun f => (f.1, recordValueFromExtension std.toStd f.2) := fun fields hnames =>
    Naming.normalize_of_normal (normal_map_names (by rw [List.map_map]; exact hnames.symm) hnormal)
  rw [survive_iff hms]
  constructor
  · rintro ⟨text', back, htext', hunmarshal, hequal⟩
    obtain rfl := Option.some.inj (hmarshal.symm.trans htext')
    obtain ⟨fields, hnames, hvalues, rfl⟩ := (hback back).mp hunmarshal
    exact ⟨fields, hnames, hvalues, hsame fields hnames ▸ hequal⟩
  · rintro ⟨fields, hnames, hvalues, hequal⟩
    refine ⟨text, _, hmarshal, (hback _).mpr ⟨fields, hnames, hvalues, rfl⟩, ?_⟩
    rw [hsame fields hnames]
    exact hequal

def bitsStd : FloatStd where
  printable := ExtensionJson.latinPrintable
  formatFloat f := Strconv.decimal f.bits.toNat
  parseFloat t :=
    match Json.natural? t with
    | some n => .ok ⟨BitVec.ofNat 64 n⟩
    | none => .error "invalid syntax"
  format_number f _ _ := (Strconv.decimal_isNumber _).1
  parse_format f _ _ := ⟨f, by
    simp only [Strconv.natural?_decimal, BitVec.ofNat_toNat, BitVec.setWidth_eq], rfl⟩

def uintCount : BuiltData bitsStd.toStd :=
  ⟨[([0x6E], uintValue 5)], List.forall_mem_singleton.mpr (.uint (by norm_num))⟩

/-- The uint comes back as an int, which is not equal to it. -/
theorem uint_read_as_int :
    ((marshalJSON bitsStd.toStd uintCount.fields).bind fun text =>
      (unmarshalJSON bitsStd.toStd text).toOption) =
        some [([0x6E], intValue 5)] ∧
      (uintValue 5).equal (intValue 5) = false ∧ ¬ RoundTrips bitsStd.toStd uintCount.fields := by
  have hback : ((marshalJSON bitsStd.toStd uintCount.fields).bind fun text =>
      (unmarshalJSON bitsStd.toStd text).toOption) =
        some [([0x6E], intValue 5)] := by decide +kernel
  refine ⟨hback, by decide +kernel, ?_⟩
  rintro ⟨text, back, htext, hread, hequal⟩
  rw [htext, Option.bind_some, hread] at hback
  obtain rfl : back = [([0x6E], intValue 5)] := Option.some.inj hback
  rw [show normalize uintCount.fields = [([0x6E], uintValue 5)] by decide +kernel,
    show normalize [([0x6E], intValue 5)] = [([0x6E], intValue 5)] by decide +kernel,
        List.forall₂_cons] at hequal
  exact absurd hequal.1.2 (by decide +kernel)

end Foundation.RecordJson
