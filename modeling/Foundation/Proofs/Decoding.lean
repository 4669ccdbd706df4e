import Foundation.Lib.Results
import Foundation.Spec.ExtensionJson

/-! The decoder of extension values against RFC 8259. The parser follows the JSON reader step by
step and reads the strings as Go does, so it is right exactly for the texts whose strings Go and
JSON read alike. -/

namespace Foundation.ExtensionJson

open Json (Tree Data Algebra Rfc Delimited Spells Text Space quotationMark escape quoted put
  putAll readValue
  readItems readMembers expect)
open Strconv (Common goString)

/-! ### The parser and the reader -/

theorem stringLoop_toOption (s : Bytes) : (stringLoop s).toOption = Json.scanBody s := by
  fun_induction Json.scanBody s with
  | case1 => rfl
  | case2 => rfl
  | case3 next rest ih => rw [← ih, stringLoop.eq_def, ← toOption_map]; rfl
  | case4 rest => rw [stringLoop.eq_def]; rfl
  | case5 c rest hne hnq hlt =>
    rw [stringLoop.eq_def]; simp only [hne, hnq, hlt, if_true, if_false]; rfl
  | case6 c rest hne hnq hlt ih =>
    rw [← ih, stringLoop.eq_def]
    simp only [hne, hnq, hlt, if_false, toOption_map]

theorem parseString_toOption (s : Bytes) : (parseString s).toOption =
    (expect quotationMark (Json.skipSpace s)).bind fun r =>
      (Json.scanBody r).bind fun k => (goString k.1).map fun text => (text, k.2) := by
  rw [parseString, consumeByte, skipSpace]
  cases expect quotationMark (Json.skipSpace s) with
  | none => rfl
  | some r =>
    rw [Option.bind_some, ← stringLoop_toOption]
    simp only [toOption_bind]
    congr 1
    funext ⟨body, rest⟩
    simp only [goString]
    by_cases h : escape ∈ body
    · rw [if_pos h, if_pos h]
      cases Strconv.unquote (quoted body) <;> rfl
    · rw [if_neg h, if_neg h]
      rfl

theorem parseNumber_toOption (s : Bytes) : (parseNumber s).toOption = Json.takeNumber s := by
  rw [parseNumber, Json.takeNumber]
  obtain ⟨sign, rest⟩ := Json.takeSign s
  simp only
  by_cases hrest : rest = []
  · rw [if_pos hrest, hrest]
    rfl
  · rw [if_neg hrest]
    cases Json.takeInt rest with
    | none => rfl
    | some i =>
      obtain ⟨int, r⟩ := i
      simp only [Option.bind_some]
      cases Json.takeFrac r with
      | none => rfl
      | some f =>
        obtain ⟨frac, r⟩ := f
        simp only [Option.bind_some]
        cases Json.takeExp r with
        | none => rfl
        | some x => rfl

/-- The value the parser gives to a tree, strings read by Go's rules. -/
def interpretation (std : Std) : Algebra (Option Value) where
  null := some .null
  bool b := some (.bool b)
  number t := (valueFromJSONNumber std t).toOption
  string b := (goString b).map .string
  array vs := (vs.mapM id).map .list
  object ms :=
    (ms.mapM fun m => (goString m.1).bind fun k => m.2.map fun v => (k, v)).map fun fields =>
    .object (putAll fields)

def interpret (std : Std) (T : Tree) : Option Value := T.fold (interpretation std)

def interpretField (std : Std) (m : Bytes × Tree) : Option (Bytes × Value) :=
  (goString m.1).bind fun k => (interpret std m.2).map fun v => (k, v)

theorem interpret_array (std : Std) (vs : List Tree) :
    interpret std (.array vs) = (vs.mapM (interpret std)).map .list := by
  rw [interpret, Tree.fold_array, ← Json.mapM_map_id]
  rfl

theorem interpret_object (std : Std) (ms : List (Bytes × Tree)) :
    interpret std (.object ms) = (ms.mapM (interpretField std)).map fun fields =>
      .object (putAll fields) := by
  rw [interpret, Tree.fold_object]
  exact congrArg (Option.map _) (Json.mapM_map_snd _ _ ms)

section
variable (std : Std) (size : ℕ)

/-- Parsing is reading and then interpreting, for every part. -/
structure Follows (fuel : ℕ) : Prop where
  value (s : Bytes) : (parseValue std size fuel s).toOption =
    (readValue fuel s).bind fun r => (interpret std r.1).map fun v => (v, r.2)
  items (out : List Value) (s : Bytes) : (parseItems std size fuel out s).toOption =
    (readItems fuel s).bind fun r => (r.1.mapM (interpret std)).map fun vs => (out ++ vs, r.2)
  fields (out : List (Bytes × Value)) (s : Bytes) : (parseFields std size fuel out s).toOption =
    (readMembers fuel s).bind fun r => (r.1.mapM (interpretField std)).map fun fields =>
      (fields.foldl (fun acc f => put f.1 f.2 acc) out, r.2)

variable {std size} {fuel : ℕ}

def afterItem (fuel : ℕ) (s : Bytes) : Option (List Tree × Bytes) :=
  match expect Json.endArray (Json.skipSpace s) with
  | some r => some ([], r)
  | none => (expect Json.valueSeparator (Json.skipSpace s)).bind (readItems fuel)

def afterMember (fuel : ℕ) (s : Bytes) : Option (List (Bytes × Tree) × Bytes) :=
  match expect Json.endObject (Json.skipSpace s) with
  | some r => some ([], r)
  | none => (expect Json.valueSeparator (Json.skipSpace s)).bind (readMembers fuel)

def afterKey (fuel : ℕ) (s : Bytes) : Option (Tree × List (Bytes × Tree) × Bytes) :=
  (expect Json.nameSeparator (Json.skipSpace s)).bind fun r =>
    (readValue fuel r).bind fun v => (afterMember fuel v.2).map fun ms => (v.1, ms.1, ms.2)

theorem readItems_succ (fuel : ℕ) (s : Bytes) : readItems (fuel + 1) s =
    (readValue fuel s).bind fun v => (afterItem fuel v.2).map fun vs => (v.1 :: vs.1, vs.2) := by
  rw [readItems]
  congr 1
  funext v
  rw [afterItem]
  cases expect Json.endArray (Json.skipSpace v.2) with
  | some r => rfl
  | none => cases expect Json.valueSeparator (Json.skipSpace v.2) <;> rfl

theorem readMembers_succ (fuel : ℕ) (s : Bytes) : readMembers (fuel + 1) s =
    (expect quotationMark (Json.skipSpace s)).bind fun r => (Json.scanBody r).bind fun k =>
      (afterKey fuel k.2).map fun m => ((k.1, m.1) :: m.2.1, m.2.2) := by
  rw [readMembers]
  congr 1
  funext r
  congr 1
  funext k
  rw [afterKey]
  cases expect Json.nameSeparator (Json.skipSpace k.2) with
  | none => rfl
  | some r =>
    simp only [Option.bind_some]
    cases readValue fuel r with
    | none => rfl
    | some v =>
      simp only [Option.bind_some, afterMember]
      cases expect Json.endObject (Json.skipSpace v.2) with
      | some r => rfl
      | none =>
        cases expect Json.valueSeparator (Json.skipSpace v.2) with
        | none => rfl
        | some r => simp only [Option.bind_some, Option.map_map]; rfl

theorem parseItems_after (ih : Follows std size fuel) (out : List Value) (s : Bytes) :
    (match consumeByte Json.endArray (skipSpace s) with
      | some rest => Except.ok (out, rest)
      | none =>
        match consumeByte Json.valueSeparator (skipSpace s) with
        | none => .error "extension list entries must be separated by ','"
        | some rest => parseItems std size fuel out (skipSpace rest) : Except String _).toOption =
      (afterItem fuel s).bind fun r => (r.1.mapM (interpret std)).map fun vs =>
        (out ++ vs, r.2) := by
  rw [afterItem]
  simp only [consumeByte, skipSpace]
  cases expect Json.endArray (Json.skipSpace s) with
  | some r => simp [Except.toOption]
  | none =>
    cases expect Json.valueSeparator (Json.skipSpace s) with
    | none => rfl
    | some r => simp only [ih.items, Json.readItems_skipSpace, Option.bind_some]

theorem parseItems_follows (ih : Follows std size fuel) (out : List Value) (s : Bytes) :
    (parseItems std size (fuel + 1) out s).toOption =
      (readItems (fuel + 1) s).bind fun r => (r.1.mapM (interpret std)).map fun vs =>
        (out ++ vs, r.2) := by
  rw [parseItems, readItems_succ, toOption_bind, ih.value]
  cases readValue fuel s with
  | none => rfl
  | some r =>
    obtain ⟨T, rest⟩ := r
    simp only [Option.bind_some]
    cases hv : interpret std T with
    | none => cases afterItem fuel rest <;> simp [hv]
    | some v =>
      simp only [Option.map_some, Option.bind_some]
      refine (parseItems_after ih (out ++ [v]) rest).trans ?_
      cases afterItem fuel rest with
      | none => rfl
      | some r' => cases hvs : r'.1.mapM (interpret std) <;> simp [hv, hvs]

section Fields

variable {α : Type} (separated : String) (add : α → Bytes × Value → α) (next : α → Bytes →
  Except String (α × Bytes))

/-- A loop over the fields of an object after the value of a field. -/
def fieldEnd (out : α) (s : Bytes) : Except String (α × Bytes) :=
  match consumeByte Json.endObject (skipSpace s) with
  | some rest => .ok (out, rest)
  | none =>
    match consumeByte Json.valueSeparator (skipSpace s) with
    | none => .error separated
    | some rest => next out rest

/-- One round of such a loop: it adds the field to what it has and goes on with `next`. -/
def fieldRound (std : Std) (size fuel : ℕ) (out : α) (s : Bytes) : Except String (α × Bytes) := do
  let (key, rest) ← parseString s
  match consumeByte Json.nameSeparator (skipSpace rest) with
  | none => .error "extension object key must be followed by ':'"
  | some rest =>
    let (value, rest) ← parseValue std size fuel rest
    fieldEnd separated next (add out (key, value)) rest

/-- A loop that reads the members that the reader reads and adds them up. -/
def ReadsMembers (std : Std) (fuel : ℕ) : Prop :=
  ∀ out s, (next out s).toOption = (readMembers fuel s).bind fun r =>
    (r.1.mapM (interpretField std)).map fun fields => (fields.foldl add out, r.2)

variable {add next}

theorem fieldEnd_follows (hnext : ReadsMembers add next std fuel) (out : α) (s : Bytes) :
    (fieldEnd separated next out s).toOption = (afterMember fuel s).bind fun r =>
      (r.1.mapM (interpretField std)).map fun fields => (fields.foldl add out, r.2) := by
  rw [fieldEnd, afterMember]
  simp only [consumeByte, skipSpace]
  cases expect Json.endObject (Json.skipSpace s) with
  | some r => simp [Except.toOption]
  | none =>
    cases expect Json.valueSeparator (Json.skipSpace s) with
    | none => rfl
    | some r => simp only [hnext out r, Option.bind_some]

theorem fieldRound_follows (ih : Follows std size fuel) (hnext : ReadsMembers add next std fuel) :
    ReadsMembers add (fieldRound separated add next std size fuel) std (fuel + 1) := by
  intro out s
  rw [fieldRound, readMembers_succ, toOption_bind, parseString_toOption]
  cases expect quotationMark (Json.skipSpace s) with
  | none => rfl
  | some r₁ =>
    simp only [Option.bind_some]
    cases Json.scanBody r₁ with
    | none => rfl
    | some k =>
      obtain ⟨key, r₂⟩ := k
      simp only [Option.bind_some]
      cases hkey : goString key with
      | none => cases afterKey fuel r₂ <;> simp [interpretField, hkey]
      | some name =>
        simp only [Option.map_some, Option.bind_some, afterKey, consumeByte, skipSpace]
        cases expect Json.nameSeparator (Json.skipSpace r₂) with
        | none => rfl
        | some r₃ =>
          simp only [toOption_bind, ih.value, Option.bind_some]
          cases readValue fuel r₃ with
          | none => rfl
          | some v =>
            obtain ⟨T, rest⟩ := v
            simp only [Option.bind_some]
            cases hv : interpret std T with
            | none => cases afterMember fuel rest <;> simp [interpretField, hkey, hv]
            | some v =>
              simp only [Option.map_some, Option.bind_some, fieldEnd_follows separated hnext]
              cases afterMember fuel rest with
              | none => rfl
              | some r' =>
                cases hms : r'.1.mapM (interpretField std) <;> simp [interpretField, hkey, hv, hms]

end Fields

theorem parseFields_follows (ih : Follows std size fuel) :
    ReadsMembers (fun out f => put f.1 f.2 out) (parseFields std size (fuel + 1)) std
      (fuel + 1) := by
  have hnext : ReadsMembers (fun out f => put f.1 f.2 out)
      (fun out s => parseFields std size fuel out (skipSpace s)) std fuel := by
    intro out s
    rw [ih.fields, skipSpace, Json.readMembers_skipSpace]
  intro out s
  rw [← fieldRound_follows "extension object entries must be separated by ','" ih hnext,
    parseFields]
  rfl

theorem parseObjectWith_follows (ih : Follows std size fuel) {rest : Bytes}
    (hself : Json.skipSpace (Json.beginObject :: rest) = Json.beginObject :: rest) :
    ((parseObjectWith (parseFields std size fuel) (Json.beginObject :: rest)).map fun r =>
        (Value.object r.1, r.2)).toOption =
      (match expect Json.endObject (Json.skipSpace rest) with
        | some r => some (Tree.object [], r)
        | none => (readMembers fuel rest).map fun r => (.object r.1, r.2) :
          Option (Tree × Bytes)).bind fun r =>
          (interpret std r.1).map fun v => (v, r.2) := by
  rw [toOption_map, parseObjectWith, consumeByte, skipSpace, hself, Json.expect_self]
  simp only [consumeByte, skipSpace]
  cases expect Json.endObject (Json.skipSpace rest) with
  | some r => simp [interpret_object, Except.toOption, putAll]
  | none =>
    simp only [ih.fields, Json.readMembers_skipSpace]
    cases readMembers fuel rest with
    | none => rfl
    | some r => cases hms : r.1.mapM (interpretField std) <;> simp [interpret_object, hms, putAll]

theorem parseListWith_follows (ih : Follows std size fuel) {rest : Bytes}
    (hself : Json.skipSpace (Json.beginArray :: rest) = Json.beginArray :: rest) :
    ((parseListWith (parseItems std size fuel) (Json.beginArray :: rest)).map fun r =>
        (Value.list r.1, r.2)).toOption =
      (match expect Json.endArray (Json.skipSpace rest) with
        | some r => some (Tree.array [], r)
        | none => (readItems fuel rest).map fun r => (.array r.1, r.2) :
          Option (Tree × Bytes)).bind fun r =>
          (interpret std r.1).map fun v => (v, r.2) := by
  rw [toOption_map, parseListWith, consumeByte, skipSpace, hself, Json.expect_self]
  simp only [consumeByte, skipSpace]
  cases expect Json.endArray (Json.skipSpace rest) with
  | some r => simp [interpret_array, Except.toOption]
  | none =>
    simp only [ih.items, Json.readItems_skipSpace]
    cases readItems fuel rest with
    | none => rfl
    | some r => cases hvs : r.1.mapM (interpret std) <;> simp [interpret_array, hvs]

theorem literal_follows (literal s : Bytes) (v : Value) (T : Tree) (e : String)
    (hT : interpret std T = some v) :
    (match consumeLiteral literal s with
      | some rest => Except.ok (v, rest)
      | none => .error e).toOption =
      ((Json.expectText literal s).map fun r => (T, r)).bind fun r =>
        (interpret std r.1).map fun v => (v, r.2) := by
  rw [consumeLiteral]
  cases Json.expectText literal s with
  | none => rfl
  | some r => simp [hT, Except.toOption]

theorem parseValue_follows (ih : Follows std size fuel) (s : Bytes) :
    (parseValue std size (fuel + 1) s).toOption =
      (readValue (fuel + 1) s).bind fun r => (interpret std r.1).map fun v => (v, r.2) := by
  rw [parseValue, readValue, skipSpace]
  cases hskip : Json.skipSpace s with
  | nil => rfl
  | cons c rest =>
    have hself : Json.skipSpace (c :: rest) = c :: rest := hskip ▸ Json.skipSpace_skipSpace s
    simp only
    by_cases hn : c = 0x6E
    · rw [if_pos hn, if_pos hn]
      exact literal_follows _ _ .null .null _ rfl
    rw [if_neg hn, if_neg hn]
    by_cases ht : c = 0x74
    · rw [if_pos ht, if_pos ht]
      exact literal_follows _ _ (.bool true) (.bool true) _ rfl
    rw [if_neg ht, if_neg ht]
    by_cases hf : c = 0x66
    · rw [if_pos hf, if_pos hf]
      exact literal_follows _ _ (.bool false) (.bool false) _ rfl
    rw [if_neg hf, if_neg hf]
    by_cases hq : c = quotationMark
    · rw [if_pos hq, if_pos hq, toOption_map, parseString_toOption, hself, hq, Json.expect_self,
        Option.bind_some]
      cases Json.scanBody rest with
      | none => rfl
      | some k =>
        have hstring : interpret std (.string k.1) = (goString k.1).map .string := rfl
        cases hk : goString k.1 <;> simp [hstring, hk]
    rw [if_neg hq, if_neg hq]
    by_cases ho : c = Json.beginObject
    · rw [if_pos ho, if_pos ho, ho]
      exact parseObjectWith_follows ih (ho ▸ hself)
    rw [if_neg ho, if_neg ho]
    by_cases ha : c = Json.beginArray
    · rw [if_pos ha, if_pos ha, ha]
      exact parseListWith_follows ih (ha ▸ hself)
    rw [if_neg ha, if_neg ha, toOption_bind, parseNumber_toOption]
    cases Json.takeNumber (c :: rest) with
    | none => rfl
    | some n =>
      have hnumber : interpret std (.number n.1) = (valueFromJSONNumber std n.1).toOption := rfl
      simp only [Option.bind_some, Option.map_some, hnumber]
      cases valueFromJSONNumber std n.1 <;> rfl

theorem follows (std : Std) (size fuel : ℕ) : Follows std size fuel := by
  induction fuel with
  | zero => exact ⟨fun _ => rfl, fun _ _ => rfl, fun _ _ => rfl⟩
  | succ fuel ih => exact ⟨parseValue_follows ih, parseItems_follows ih, parseFields_follows ih⟩

/-- The decoder accepts the texts that spell a tree it can interpret. -/
theorem decodeValueBytes_eq_ok {std : Std} {data : Bytes} {v : Value} :
    decodeValueBytes std data = .ok v ↔ ∃ T, Text Delimited (trimBytes data) T ∧
      interpret std T = some v := by
  have hread : (decodeValueBytes std data).toOption = (Json.read (trimBytes data)).bind
      (interpret std) := by
    rw [decodeValueBytes, Json.read]
    by_cases hnil : trimBytes data = []
    · simp only [hnil, if_true]
      rfl
    · simp only [if_neg hnil, toOption_bind, (follows std _ _).value]
      cases readValue (2 * (trimBytes data).length) (trimBytes data) with
      | none => rfl
      | some r =>
        simp only [Option.bind_some, skipSpace]
        by_cases hr : Json.skipSpace r.2 = []
        · cases hv : interpret std r.1 <;> simp [hr, hv, Except.toOption]
        · cases interpret std r.1 <;> simp [hr, Except.toOption]
  rw [← toOption_eq_some, hread, Option.bind_eq_some_iff]
  simp only [Json.read_eq_some fun _ => Iff.rfl]

end

/-! ### Surrounding spaces -/

variable {c : UInt8} {t : Bytes}

theorem not_isPrefixOf (hc : Json.Visible c) (r : Bytes) :
    ∀ e ∈ spaceEncodings, e.isPrefixOf (c :: r) = false := by
  have hheads : ∀ e ∈ spaceEncodings, ∃ d e', e = d :: e' ∧ ¬ Json.Visible d := by
    have : ∀ e ∈ spaceEncodings, e ≠ [] ∧ ∀ d ∈ e.head?, ¬ Json.Visible d := by decide +kernel
    intro e he
    obtain ⟨hne, hd⟩ := this e he
    obtain ⟨d, e', rfl⟩ := List.exists_cons_of_ne_nil hne
    exact ⟨d, e', rfl, hd d rfl⟩
  intro e he
  obtain ⟨d, e', rfl, hd⟩ := hheads e he
  have hne : d ≠ c := fun h => hd (h ▸ hc)
  simp [List.isPrefixOf, hne]

theorem not_isSuffixOf (ht : Json.VisibleEnd t) : ∀ e ∈ spaceEncodings, e.isSuffixOf t = false := by
  have hlast : ∀ e ∈ spaceEncodings, ∀ d ∈ e.getLast?, ¬ Json.Visible d := by decide +kernel
  have hne : ∀ e ∈ spaceEncodings, e ≠ [] := by decide
  obtain ⟨r, c, rfl, hc⟩ := ht
  intro e he
  rw [Bool.eq_false_iff]
  intro hsuf
  obtain ⟨p, hp⟩ := List.isSuffixOf_iff_suffix.mp hsuf
  have hend := congrArg List.getLast? hp
  rw [List.getLast?_append_of_ne_nil _ (hne e he), List.getLast?_concat] at hend
  exact hlast e he c hend hc

theorem trimLeftBytes_visible (hc : Json.Visible c) (r : Bytes) (fuel : ℕ) :
    trimLeftBytes fuel (c :: r) = c :: r := by
  cases fuel with
  | zero => rfl
  | succ fuel =>
    rw [trimLeftBytes, List.find?_eq_none.mpr fun e he => by rw [not_isPrefixOf hc r e he]; decide]

theorem trimRightBytes_visible (ht : Json.VisibleEnd t) (fuel : ℕ) : trimRightBytes fuel t = t := by
  cases fuel with
  | zero => rfl
  | succ fuel =>
    rw [trimRightBytes, List.find?_eq_none.mpr fun e he => by rw [not_isSuffixOf ht e he]; decide]

theorem trimLeftBytes_space {w : Bytes} (hw : Space w) (hc : Json.Visible c) (r : Bytes) :
    ∀ fuel, w.length ≤ fuel → trimLeftBytes fuel (w ++ c :: r) = c :: r := by
  induction w with
  | nil => exact fun fuel _ => trimLeftBytes_visible hc r fuel
  | cons b w ih =>
    intro fuel hfuel
    obtain ⟨fuel, rfl⟩ := Nat.exists_eq_succ_of_ne_zero (show fuel ≠ 0 by rintro rfl; simp at hfuel)
    obtain ⟨hb, hw⟩ := List.forall_mem_cons.mp hw
    have hfind : spaceEncodings.find? (·.isPrefixOf (b :: w ++ c :: r)) = some [b] := by
      simp only [Json.isSpace, Bool.or_eq_true, beq_iff_eq] at hb
      rcases hb with ((rfl | rfl) | rfl) | rfl <;> simp [spaceEncodings, List.find?,
        List.isPrefixOf]
    rw [trimLeftBytes, hfind]
    exact ih hw fuel (by simpa using hfuel)

theorem trimRightBytes_space {w : Bytes} (hw : Space w) (ht : Json.VisibleEnd t) :
    ∀ fuel, w.length ≤ fuel → trimRightBytes fuel (t ++ w) = t := by
  induction w using List.reverseRecOn with
  | nil => intro fuel _; rw [List.append_nil]; exact trimRightBytes_visible ht fuel
  | append_singleton w b ih =>
    intro fuel hfuel
    rw [List.length_append] at hfuel
    obtain ⟨fuel, rfl⟩ := Nat.exists_eq_succ_of_ne_zero (show fuel ≠ 0 by rintro rfl; simp at hfuel)
    have hb := hw b (by simp)
    have hfind : spaceEncodings.find? (·.isSuffixOf (t ++ (w ++ [b]))) = some [b] := by
      simp only [Json.isSpace, Bool.or_eq_true, beq_iff_eq] at hb
      rcases hb with ((rfl | rfl) | rfl) | rfl <;>
        simp [spaceEncodings, List.find?, List.isSuffixOf, List.isPrefixOf]
    have htake : (t ++ (w ++ [b])).take ((t ++ (w ++ [b])).length - [b].length) = t ++ w := by
      rw [← List.append_assoc, List.length_append, Nat.add_sub_cancel]
      exact List.take_left
    rw [trimRightBytes, hfind]
    simp only
    rw [htake]
    exact ih (fun d hd => hw d (by simp [hd])) fuel (by simpa using hfuel)

theorem Text.trim {S : Bytes → Prop} {T : Tree} (h : Text S t T) : Text S (trimBytes t) T := by
  obtain ⟨w, core, w', hw, hcore, hw', rfl⟩ := h
  obtain ⟨⟨c, r, rfl, hc⟩, hend⟩ := hcore.ends
  have hleft : trimLeftBytes (w ++ (c :: r ++ w')).length (w ++ (c :: r ++ w')) = c :: r ++ w' :=
    trimLeftBytes_space hw hc (r ++ w') _ (by simp)
  rw [trimBytes, hleft,
    trimRightBytes_space hw' hend _ (by simp only [List.length_append, List.length_cons]; omega)]
  exact ⟨[], c :: r, [], (fun b hb => by cases hb), hcore, (fun b hb => by cases hb), by simp⟩

/-! ### Go and JSON -/

mutual

/-- The extension value of JSON data. -/
def ofData : Data → Value
  | .null => .null
  | .bool b => .bool b
  | .integer i => .int i
  | .string s => .string s
  | .array items => .list (ofItems items)
  | .object fields => .object (ofFields fields)

def ofItems : List Data → List Value
  | [] => []
  | d :: ds => ofData d :: ofItems ds

def ofFields : List (Bytes × Data) → List (Bytes × Value)
  | [] => []
  | (k, d) :: fields => (k, ofData d) :: ofFields fields

end

theorem ofItems_eq (items : List Data) : ofItems items = items.map ofData := by
  induction items with
  | nil => rfl
  | cons d ds ih => rw [ofItems, ih, List.map_cons]

theorem ofFields_eq (fields : List (Bytes × Data)) :
    ofFields fields = fields.map fun f => (f.1, ofData f.2) := by
  induction fields with
  | nil => rfl
  | cons f fields ih => rw [ofFields, ih, List.map_cons]

theorem put_map {α β : Type} (f : α → β) (k : Bytes) (v : α) (fields : List (Bytes × α)) :
    (put k v fields).map (fun e => (e.1, f e.2)) =
      put k (f v) (fields.map fun e => (e.1, f e.2)) := by
  induction fields with
  | nil => rfl
  | cons e rest ih =>
    rw [put, List.map_cons, put]
    split_ifs
    · rfl
    · rfl
    · rw [List.map_cons, ih]

theorem putAll_map {α β : Type} (f : α → β) (l : List (Bytes × α)) :
    (putAll l).map (fun e => (e.1, f e.2)) = putAll (l.map fun e => (e.1, f e.2)) := by
  rw [putAll, putAll, List.foldl_map]
  exact (List.foldl_hom (List.map fun e : Bytes × α => (e.1, f e.2)) fun acc e =>
    (put_map f e.1 e.2 acc).symm).symm

def FitsInt64 (n : Bytes) : Prop := ∃ i, Json.integer? n = some i ∧ -2 ^ 63 ≤ i ∧ i < 2 ^ 63

theorem FitsInt64.value {n : Bytes} {i : ℤ} (std : Std) (h : Json.integer? n = some i)
    (hlo : -2 ^ 63 ≤ i) (hhi : i < 2 ^ 63) : valueFromJSONNumber std n = .ok (.int i) := by
  have hparse : Strconv.parseInt n = some i := by
    cases n with
    | nil => cases h
    | cons c ds =>
      have hplus : c ≠ 0x2B := by
        rintro rfl
        rw [Json.integer?, if_neg (by decide), Json.natural?, if_neg (by simp [Json.isDigit])] at h
        cases h
      rw [Json.integer?] at h
      simp only [Strconv.parseInt, if_neg hplus, h]
      exact Option.filter_eq_some_iff.mpr ⟨rfl, decide_eq_true ⟨hlo, hhi⟩⟩
  rw [valueFromJSONNumber, hparse]

section
variable {γ δ : Type}

theorem mapM_exists {α : Type} {f : α → Option γ} {g : α → Option δ} {conv : γ → δ} {l : List α}
    (h : ∀ a ∈ l, ∃ c, f a = some c ∧ g a = some (conv c)) :
    ∃ cs, l.mapM f = some cs ∧ l.mapM g = some (cs.map conv) := by
  induction l with
  | nil => exact ⟨[], rfl, rfl⟩
  | cons a l ih =>
    obtain ⟨c, hf, hg⟩ := h a (by simp)
    obtain ⟨cs, hfs, hgs⟩ := ih fun b hb => h b (List.mem_cons_of_mem a hb)
    refine ⟨c :: cs, ?_, ?_⟩
    · rw [List.mapM_cons, hf, hfs]; rfl
    · rw [List.mapM_cons, hg, hgs]; rfl

theorem mapM_isSome {α : Type} {f : α → Option γ} {l : List α} :
    (l.mapM f).isSome = true ↔ ∀ a ∈ l, (f a).isSome = true := by
  induction l with
  | nil => exact iff_of_true rfl fun a ha => by cases ha
  | cons a l ih =>
    rw [List.mapM_cons, List.forall_mem_cons, ← ih]
    cases f a with
    | none => simp
    | some c => cases l.mapM f <;> simp

end

/-- A text of common strings and fitting integers is interpreted as what it denotes. -/
theorem interpret_common (std : Std) (T : Tree) (hb : ∀ b ∈ T.bodies, Common b)
    (hn : ∀ n ∈ T.numbers, FitsInt64 n) :
    ∃ d, T.denote = some d ∧ interpret std T = some (ofData d) := by
  induction T using Tree.induct with
  | null => exact ⟨.null, rfl, rfl⟩
  | bool b => exact ⟨.bool b, rfl, rfl⟩
  | number t =>
    obtain ⟨i, hi, hlo, hhi⟩ := hn t (List.mem_singleton.mpr rfl)
    refine ⟨.integer i, congrArg (Option.map _) hi, ?_⟩
    exact congrArg Except.toOption (FitsInt64.value std hi hlo hhi)
  | string b =>
    obtain ⟨cs, hcs⟩ := hb b (List.mem_singleton.mpr rfl)
    exact ⟨.string (Utf8.encode cs), congrArg (Option.map _) hcs.stringValue,
      congrArg (Option.map _) hcs.goString⟩
  | array vs ih =>
    rw [Tree.bodies_array] at hb
    rw [Tree.numbers_array] at hn
    obtain ⟨ds, hden, hint⟩ := mapM_exists fun v hv => ih v hv
      (fun b hb' => hb b (List.mem_flatMap.mpr ⟨v, hv, hb'⟩)) fun n hn' =>
        hn n (List.mem_flatMap.mpr ⟨v, hv, hn'⟩)
    refine ⟨.array ds, by rw [Tree.denote_array, hden]; rfl, ?_⟩
    rw [interpret_array, hint, ofData, ofItems_eq]
    rfl
  | object ms ih =>
    rw [Tree.bodies_object] at hb
    rw [Tree.numbers_object] at hn
    have hmember : ∀ m ∈ ms, ∃ f : Bytes × Data,
        ((Json.stringValue m.1).bind fun k => m.2.denote.map fun v => (k, v)) = some f ∧
          interpretField std m = some (f.1, ofData f.2) := by
      intro m hm
      obtain ⟨cs, hcs⟩ := hb m.1 (List.mem_flatMap.mpr ⟨m, hm, List.mem_cons_self⟩)
      obtain ⟨d, hd, hv⟩ :=
        ih m hm (fun b hb' => hb b (List.mem_flatMap.mpr ⟨m, hm, List.mem_cons_of_mem _ hb'⟩))
        fun n hn' => hn n (List.mem_flatMap.mpr ⟨m, hm, hn'⟩)
      refine ⟨(Utf8.encode cs, d), ?_, ?_⟩
      · rw [hcs.stringValue, Option.bind_some, hd, Option.map_some]
      · rw [interpretField, hcs.goString, Option.bind_some, hv, Option.map_some]
    obtain ⟨fs, hden, hint⟩ := mapM_exists hmember
    refine ⟨.object (putAll fs), by rw [Tree.denote_object, hden]; rfl, ?_⟩
    rw [interpret_object, hint, Option.map_some, ofData, ofFields_eq, putAll_map]

/-- A number that is an integer of 64 bits or that Go's `ParseFloat` accepts. -/
def Readable (std : Std) (n : Bytes) : Prop := (valueFromJSONNumber std n).toOption.isSome = true

theorem interpret_isSome (std : Std) (T : Tree) : (interpret std T).isSome = true ↔
    (∀ b ∈ T.bodies, (goString b).isSome = true) ∧ ∀ n ∈ T.numbers, Readable std n := by
  have hnone : ∀ {p : Bytes → Prop}, ∀ b ∈ ([] : List Bytes), p b := fun b hb => by cases hb
  induction T using Tree.induct with
  | null => exact iff_of_true rfl ⟨hnone, hnone⟩
  | bool b => exact iff_of_true rfl ⟨hnone, hnone⟩
  | number t =>
    exact ⟨fun h => ⟨hnone, List.forall_mem_singleton.mpr h⟩,
      fun h => h.2 t (List.mem_singleton.mpr rfl)⟩
  | string b =>
    have hstring : (interpret std (.string b)).isSome = (goString b).isSome := Option.isSome_map
    rw [hstring]
    exact ⟨fun h => ⟨List.forall_mem_singleton.mpr h, hnone⟩,
      fun h => h.1 b (List.mem_singleton.mpr rfl)⟩
  | array vs ih =>
    rw [interpret_array, Option.isSome_map, mapM_isSome, Tree.bodies_array, Tree.numbers_array]
    simp only [List.mem_flatMap, forall_exists_index, and_imp]
    constructor
    · intro h
      exact ⟨fun b v hv hb => ((ih v hv).mp (h v hv)).1 b hb,
        fun n v hv hn => ((ih v hv).mp (h v hv)).2 n hn⟩
    · exact fun h v hv => (ih v hv).mpr ⟨fun b hb => h.1 b v hv hb, fun n hn => h.2 n v hv hn⟩
  | object ms ih =>
    have hfield : ∀ m : Bytes × Tree, (interpretField std m).isSome = true ↔
        (goString m.1).isSome = true ∧ (interpret std m.2).isSome = true := by
      intro m
      rw [interpretField]
      cases goString m.1 <;> simp
    rw [interpret_object, Option.isSome_map, mapM_isSome, Tree.bodies_object, Tree.numbers_object]
    simp only [List.mem_flatMap, forall_exists_index, and_imp, hfield]
    constructor
    · intro h
      refine ⟨fun b m hm hb => ?_, fun n m hm hn => ((ih m hm).mp (h m hm).2).2 n hn⟩
      rcases List.mem_cons.mp hb with rfl | hb
      · exact (h m hm).1
      · exact ((ih m hm).mp (h m hm).2).1 b hb
    · intro h m hm
      have hbodies := List.forall_mem_cons.mp fun b hb => h.1 b m hm hb
      exact ⟨hbodies.1, (ih m hm).mpr ⟨hbodies.2, fun n hn => h.2 n m hm hn⟩⟩

/-- The string bodies the parser accepts. -/
def GoQuoted (b : Bytes) : Prop := Delimited b ∧ (goString b).isSome = true

/-- The decoder is exact on a text: it returns what JSON with 64-bit integers denotes, and what it
accepts is JSON up to surrounding space. -/
structure Exact (std : Std) (t : Bytes) : Prop where
  complete : ∀ T, Text Rfc t T → (∀ n ∈ T.numbers, FitsInt64 n) →
    ∃ d, T.denote = some d ∧ decodeValueBytes std t = .ok (ofData d)
  sound : ∀ v, decodeValueBytes std t = .ok v → ∃ T, Text Rfc (trimBytes t) T

/-- The decoder is exact on a text if and only if the strings of the text, where JSON or where Go
reads them all, are common to both. -/
theorem decoder_exact_iff (std : Std) (t : Bytes) : Exact std t ↔
    (∀ T, Text Rfc t T → (∀ n ∈ T.numbers, FitsInt64 n) → ∀ b ∈ T.bodies, Common b) ∧
      ∀ T, Text GoQuoted (trimBytes t) T → (∀ n ∈ T.numbers, Readable std n) → ∀ b ∈ T.bodies,
        Common b := by
  constructor
  · rintro ⟨hcomplete, hsound⟩
    constructor
    · intro T hT hn b hb
      obtain ⟨d, -, hd⟩ := hcomplete T hT hn
      obtain ⟨T', hT', hint⟩ := decodeValueBytes_eq_ok.mp hd
      obtain rfl := (Text.trim hT).unique (fun _ h => h.delimited) (fun _ h => h) hT'
      have hgo := ((interpret_isSome std T).mp (by rw [hint]; rfl)).1 b hb
      exact Strconv.common_iff.mpr ⟨hT.bodies b hb, hgo⟩
    · intro T hT hn b hb
      have hgo : ∀ b ∈ T.bodies, (goString b).isSome = true := fun b hb => (hT.bodies b hb).2
      obtain ⟨v, hv⟩ := Option.isSome_iff_exists.mp ((interpret_isSome std T).mpr ⟨hgo, hn⟩)
      obtain ⟨T', hT'⟩ :=
        hsound v (decodeValueBytes_eq_ok.mpr ⟨T, hT.of_bodies fun _ _ h => h.1, hv⟩)
      obtain rfl := hT.unique (fun _ h => h.1) (fun _ h => h.delimited) hT'
      exact Strconv.common_iff.mpr ⟨hT'.bodies b hb, hgo b hb⟩
  · rintro ⟨hjson, hgo⟩
    constructor
    · intro T hT hn
      obtain ⟨d, hd, hint⟩ := interpret_common std T (hjson T hT hn) hn
      exact ⟨d, hd,
        decodeValueBytes_eq_ok.mpr ⟨T, (Text.trim hT).of_bodies fun _ _ h => h.delimited, hint⟩⟩
    · intro v hv
      obtain ⟨T, hT, hint⟩ := decodeValueBytes_eq_ok.mp hv
      obtain ⟨hbodies, hn⟩ := (interpret_isSome std T).mp (by rw [hint]; rfl)
      have hquoted : Text GoQuoted (trimBytes t) T := hT.of_bodies fun b hb h => ⟨h, hbodies b hb⟩
      exact ⟨T, hT.of_bodies fun b hb _ => (hgo T hquoted hn b hb).rfc⟩

/-- `"\/"` is JSON for a solidus and rejected; `"\x41"` is not JSON and accepted. -/
theorem escapes_misread :
    (∃ T, Text Rfc [0x22, 0x5C, 0x2F, 0x22] T ∧ T.numbers = [] ∧ T.denote = some (.string [0x2F]) ∧
      decodeValueBytes latinStd [0x22, 0x5C, 0x2F, 0x22] = .error "invalid syntax") ∧
    decodeValueBytes latinStd [0x22, 0x5C, 0x78, 0x34, 0x31, 0x22] = .ok (.string [0x41]) ∧
      ¬ ∃ T, Text Rfc (trimBytes [0x22, 0x5C, 0x78, 0x34, 0x31, 0x22]) T := by
  refine ⟨⟨.string [0x5C, 0x2F], ?_, rfl, rfl, rfl⟩, rfl, ?_⟩
  · exact ⟨[], _, [], (fun b hb => by cases hb), .string (by decide),
      (fun b hb => by cases hb), rfl⟩
  · rintro ⟨T, hT⟩
    have hread := (Json.read_eq_some fun _ => Iff.rfl).mpr (hT.of_bodies fun _ _ hb => hb.delimited)
    obtain rfl : Tree.string [0x5C, 0x78, 0x34, 0x31] = T := Option.some.inj hread
    exact absurd (hT.bodies _ (List.mem_singleton.mpr rfl))
      (Json.not_rfc_escape (by decide) (by decide) _)

end Foundation.ExtensionJson
