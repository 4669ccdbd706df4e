import Foundation.Spec.ExtensionJson

/-! What the encoders of extension values emit is JSON exactly for the values whose strings Go
quotes as JSON does; it then denotes the value. -/

namespace Foundation.ExtensionJson

open Json (Tree Data Rfc Delimited Spells Text Space valueSeparator nameSeparator beginArray
  endArray beginObject
  endObject quoted)
open Strconv (Printable QuotableString quoteBody encodeToString)

/-- Values built from null, strings, booleans, integers, bytes, lists and objects. -/
inductive Built : Value → Prop
  | null : Built .null
  | string (s : Bytes) : Built (.string s)
  | bool (b : Bool) : Built (.bool b)
  | int {i : ℤ} : -2 ^ 63 ≤ i → i < 2 ^ 63 → Built (.int i)
  | uint {u : ℕ} : u < 2 ^ 64 → Built (.uint u)
  | bytes (b : Bytes) : Built (.bytes b)
  | list {items : List Value} : (∀ v ∈ items, Built v) → Built (.list items)
  | object {fields : List (Bytes × Value)} : Json.Ascending fields → (∀ f ∈ fields, Built f.2) →
      Built (.object fields)

/-- Every string and every key, at every depth, is in `Q`. -/
inductive Strings (Q : Bytes → Prop) : Value → Prop
  | null : Strings Q .null
  | string {s : Bytes} : Q s → Strings Q (.string s)
  | bool (b : Bool) : Strings Q (.bool b)
  | int (i : ℤ) : Strings Q (.int i)
  | uint (u : ℕ) : Strings Q (.uint u)
  | bytes (b : Bytes) : Strings Q (.bytes b)
  | list {items : List Value} : (∀ v ∈ items, Strings Q v) → Strings Q (.list items)
  | object {fields : List (Bytes × Value)} : (∀ f ∈ fields, Q f.1) → (∀ f ∈ fields, Strings Q f.2) →
      Strings Q (.object fields)

abbrev QuotableValue (p : Printable) : Value → Prop := Strings (QuotableString p)

mutual

/-- The structure of a value as JSON data, bytes as their base64 string. Floats have none. -/
def Value.data : Value → Data
  | .null => .null
  | .string s => .string s
  | .bool b => .bool b
  | .int i => .integer i
  | .uint u => .integer u
  | .float _ => .null
  | .bytes b => .string (encodeToString b)
  | .list items => .array (itemsData items)
  | .object fields => .object (fieldsData fields)

def itemsData : List Value → List Data
  | [] => []
  | v :: vs => v.data :: itemsData vs

def fieldsData : List (Bytes × Value) → List (Bytes × Data)
  | [] => []
  | (k, v) :: fields => (k, v.data) :: fieldsData fields

end

theorem itemsData_eq (items : List Value) : itemsData items = items.map Value.data := by
  induction items with
  | nil => rfl
  | cons v vs ih => rw [itemsData, ih, List.map_cons]

theorem fieldsData_eq (fields : List (Bytes × Value)) :
    fieldsData fields = fields.map fun f => (f.1, f.2.data) := by
  induction fields with
  | nil => rfl
  | cons f fields ih => rw [fieldsData, ih, List.map_cons]

variable {v : Value}

section
variable (std : Std) (orders : RangeOrders)

theorem itemAppenders_eq (items : List Value) :
    itemAppenders std orders items = items.map (appendValue std orders) := by
  induction items with
  | nil => rfl
  | cons v vs ih => rw [itemAppenders, ih, List.map_cons]

theorem fieldAppenders_eq (fields : List (Bytes × Value)) :
    fieldAppenders std orders fields = fields.map fun f => (f.1, appendValue std orders f.2) := by
  induction fields with
  | nil => rfl
  | cons f fields ih => rw [fieldAppenders, ih, List.map_cons]

/-- How the text of a value relates to it. -/
structure Renders (v : Value) (T : Tree) : Prop where
  rfc : (∀ b ∈ T.bodies, Rfc b) ↔ QuotableValue std.printable v
  denote : QuotableValue std.printable v → T.denote = some v.data

/-! ### What the encoders write, by a relation between values and trees -/

/-- An appender writes some text of a tree related to the value. -/
def Writes (R : Value → Tree → Prop) (v : Value) (append : Bytes → Bytes) : Prop :=
  ∀ dst, ∃ T t, append dst = dst ++ t ∧ Spells Delimited (.value T) t ∧ R v T

def WritesField (R : Value → Tree → Prop) (f : Bytes × Value) (m : Bytes × Tree) : Prop :=
  m.1 = quoteBody std.printable f.1 ∧ R f.2 m.2

/-- The relation holds of what is written for each kind of value, if it holds of the parts. -/
structure Kept (R : Value → Tree → Prop) : Prop where
  null : R .null .null
  string (s : Bytes) : R (.string s) (.string (quoteBody std.printable s))
  bool (b : Bool) : R (.bool b) (.bool b)
  int {i : ℤ} {t : Bytes} : -2 ^ 63 ≤ i → i < 2 ^ 63 → Json.integer? t = some i →
    R (.int i) (.number t)
  uint {u : ℕ} {t : Bytes} : Json.integer? t = some (u : ℤ) → R (.uint u) (.number t)
  bytes (b : Bytes) : R (.bytes b) (.string (quoteBody std.printable (encodeToString b)))
  list {items : List Value} {Ts : List Tree} : List.Forall₂ R items Ts → R (.list items) (.array Ts)
  object {fields fields' : List (Bytes × Value)} {Ms : List (Bytes × Tree)} :
    Json.Ascending fields →
    fields'.Perm fields → List.Forall₂ (WritesField std R) fields' Ms →
      R (.object fields) (.object Ms)

variable {std} {R : Value → Tree → Prop}

theorem appendItems_writes {vs : List Value} (f : Value → Bytes → Bytes)
    (h : ∀ u ∈ v :: vs, Writes R u (f u)) (first : Bool) (dst : Bytes) :
    ∃ Ts t, appendItems first dst ((v :: vs).map f) = (if first then dst
      else dst ++ [valueSeparator]) ++ t ∧
      Spells Delimited (.items Ts) t ∧ List.Forall₂ R (v :: vs) Ts := by
  have hnil : Space [] := fun b hb => by cases hb
  induction vs generalizing v first dst with
  | nil =>
    obtain ⟨T, t, ht, hspell, hT⟩ := h v (by simp) (if first then dst else dst ++ [valueSeparator])
    refine ⟨[T], t, ht, ?_, .cons hT .nil⟩
    simpa using Spells.item hnil hspell hnil
  | cons u vs ih =>
    obtain ⟨T, t, ht, hspell, hT⟩ := h v (by simp) (if first then dst else dst ++ [valueSeparator])
    rw [List.map_cons, appendItems, ht]
    obtain ⟨Ts, rest, hrest, hspells, hTs⟩ := ih (fun w hw => h w (List.mem_cons_of_mem v hw)) false
      ((if first then dst else dst ++ [valueSeparator]) ++ t)
    refine ⟨T :: Ts, t ++ valueSeparator :: rest, ?_, ?_, .cons hT hTs⟩
    · rw [hrest]
      simp
    · simpa using Spells.items hnil hspell hnil hspells

theorem appendFields_writes {f : Bytes × Value} {fs : List (Bytes × Value)}
    (append : Value → Bytes → Bytes) (h : ∀ g ∈ f :: fs, Writes R g.2 (append g.2)) (first : Bool)
    (dst : Bytes) :
    ∃ Ms t, appendFields std first dst ((f :: fs).map fun g => (g.1, append g.2)) =
        (if first then dst else dst ++ [valueSeparator]) ++ t ∧
      Spells Delimited (.members Ms) t ∧ List.Forall₂ (WritesField std R) (f :: fs) Ms := by
  have hnil : Space [] := fun b hb => by cases hb
  have hkey := fun k => Strconv.quoteBody_delimited std.printable k
  induction fs generalizing f first dst with
  | nil =>
    obtain ⟨T, t, ht, hspell, hT⟩ := h f (by simp) (Strconv.appendQuote std.printable
      (if first then dst else dst ++ [valueSeparator]) f.1 ++ [nameSeparator])
    refine ⟨[(_, T)], _, ?_, Spells.member hnil (hkey f.1) hnil hnil hspell hnil,
      .cons ⟨rfl, hT⟩ .nil⟩
    rw [List.map_singleton, appendFields]
    dsimp only
    rw [ht, appendFields, Strconv.appendQuote]
    simp
  | cons g fs ih =>
    obtain ⟨T, t, ht, hspell, hT⟩ := h f (by simp) (Strconv.appendQuote std.printable
      (if first then dst else dst ++ [valueSeparator]) f.1 ++ [nameSeparator])
    obtain ⟨Ms, rest, hrest, hspells, hMs⟩ := ih (fun w hw => h w (List.mem_cons_of_mem f hw)) false
      (Strconv.appendQuote std.printable (if first then dst else dst ++ [valueSeparator]) f.1 ++
        [nameSeparator] ++ t)
    refine ⟨(_, T) :: Ms, _, ?_, Spells.members hnil (hkey f.1) hnil hnil hspell hnil hspells,
      .cons ⟨rfl, hT⟩ hMs⟩
    rw [List.map_cons, appendFields]
    dsimp only
    rw [ht, hrest, Strconv.appendQuote]
    simp

section
variable {α β γ : Type} {R : α → β → Prop}

theorem forall₂_forall_iff {P : α → Prop} {Q : β → Prop} (hR : ∀ a b, R a b → (Q b ↔ P a))
    {l : List α} {l' : List β} (h : List.Forall₂ R l l') : (∀ b ∈ l', Q b) ↔ ∀ a ∈ l, P a := by
  induction h with
  | nil => simp
  | cons hab _ ih => rw [List.forall_mem_cons, List.forall_mem_cons, hR _ _ hab, ih]

theorem forall₂_mapM {f : β → Option γ} {g : α → γ} {l : List α} {l' : List β}
    (h : List.Forall₂ R l l') (hR : ∀ a ∈ l, ∀ b, R a b → f b = some (g a)) :
    l'.mapM f = some (l.map g) := by
  induction h with
  | nil => rfl
  | cons hab _ ih =>
    rw [List.mapM_cons, hR _ (by simp) _ hab, ih fun a ha => hR a (List.mem_cons_of_mem _ ha)]
    rfl

theorem perm_map {f : α → β} {l : List β} {m : List α} (h : l.Perm (m.map f)) :
    ∃ m' : List α, m'.Perm m ∧ l = m'.map f := by
  obtain ⟨m', heq, hperm⟩ := (congrFun₂ (List.eq_map_comp_perm f) l m).mpr h
  exact ⟨m', hperm, heq⟩

end

/-- Every encoder writes a text of a related tree, by induction on how the value was built. -/
theorem appendValue_writes (hR : Kept std R) (hv : Built v) :
    Writes R v (appendValue std orders v) := by
  have hspace : Space [] := fun b hb => by cases hb
  induction hv with
  | null => exact fun dst => ⟨_, _, rfl, .null, hR.null⟩
  | string s => exact fun dst => ⟨_, _, rfl, .string (Strconv.quoteBody_delimited _ s), hR.string s⟩
  | bool b => exact fun dst => ⟨_, _, rfl, .bool b, hR.bool b⟩
  | @int i hlo hhi =>
    intro dst
    obtain ⟨t, ht, hn, hi⟩ := Strconv.appendInt_spec dst i
    exact ⟨_, t, ht, .number hn, hR.int hlo hhi hi⟩
  | @uint u _ =>
    exact fun dst => ⟨_, _, rfl, .number (Strconv.decimal_isNumber u).1,
      hR.uint (Strconv.integer?_decimal u).1⟩
  | bytes b => exact fun dst => ⟨_, _, rfl, .string (Strconv.quoteBody_delimited _ _), hR.bytes b⟩
  | @list items _ ih =>
    intro dst
    cases items with
    | nil => exact ⟨_, _, rfl, .noItems hspace, hR.list .nil⟩
    | cons v vs =>
      obtain ⟨Ts, t, ht, hspells, hTs⟩ := appendItems_writes _ ih true (dst ++ [beginArray])
      refine ⟨_, _, ?_, .array hspells, hR.list hTs⟩
      rw [appendValue, if_neg (by simp), itemAppenders_eq, ht]
      simp
  | @object fields hasc _ ih =>
    intro dst
    cases fields with
    | nil => exact ⟨_, _, rfl, .noMembers hspace, hR.object hasc (.refl _) .nil⟩
    | cons f fs =>
      obtain ⟨fields', hperm, heq⟩ := perm_map ((fieldAppenders_eq std orders (f :: fs)) ▸
        orders.perm (dst ++ [beginObject]) (fieldAppenders std orders (f :: fs)))
      rw [appendValue, if_neg (by simp)]
      cases fields' with
      | nil => exact absurd hperm.length_eq (by simp)
      | cons f' fs' =>
        obtain ⟨Ms, t, ht, hspells, hMs⟩ := appendFields_writes (appendValue std orders)
          (fun g hg => ih g (hperm.mem_iff.mp hg)) true (dst ++ [beginObject])
        refine ⟨_, _, ?_, .object hspells, hR.object hasc hperm hMs⟩
        rw [fieldAppenders_eq, heq, ht]
        simp

/-! ### The values the trees denote -/

theorem renders_string {s : Bytes} {u : Value}
    (hq : QuotableString std.printable s ↔ QuotableValue std.printable u)
    (hu : u.data = .string s) : Renders std u (.string (quoteBody std.printable s)) := by
  refine ⟨?_, fun h => ?_⟩
  · rw [← hq, ← Strconv.quoteBody_rfc]
    exact List.forall_mem_singleton
  · rw [Tree.denote, Tree.fold, hu]
    exact congrArg (Option.map Data.string) (Strconv.stringValue_quoteBody (hq.mpr h))

theorem renders_number {t : Bytes} {i : ℤ} {u : Value} (ht : Json.integer? t = some i)
    (hq : QuotableValue std.printable u) (hu : u.data = .integer i) :
    Renders std u (.number t) := by
  refine ⟨iff_of_true (fun b hb => by cases hb) hq, fun _ => ?_⟩
  rw [Tree.denote, Tree.fold, hu]
  exact congrArg (Option.map Data.integer) ht

theorem Renders.list {items : List Value} {Ts : List Tree}
    (h : List.Forall₂ (Renders std) items Ts) :
    Renders std (.list items) (.array Ts) where
  rfc := by
    rw [Tree.bodies_array]
    simp only [List.mem_flatMap, forall_exists_index, and_imp]
    rw [show (∀ b T, T ∈ Ts → b ∈ T.bodies → Rfc b) ↔ ∀ T ∈ Ts, ∀ b ∈ T.bodies, Rfc b from
      ⟨fun h T hT b hb => h b T hT hb, fun h b T hT hb => h T hT b hb⟩,
      forall₂_forall_iff (fun _ _ hr => hr.rfc) h]
    exact ⟨.list, fun hq => by cases hq; assumption⟩
  denote := by
    intro hq
    cases hq with
    | list hq =>
      rw [Tree.denote_array, forall₂_mapM h fun v hv T hr => hr.denote (hq v hv), Value.data,
        itemsData_eq]
      rfl

theorem Renders.object {fields fields' : List (Bytes × Value)} {Ms : List (Bytes × Tree)}
    (hasc : Json.Ascending fields) (hperm : fields'.Perm fields)
    (h : List.Forall₂ (WritesField std (Renders std)) fields' Ms) :
    Renders std (.object fields) (.object Ms) where
  rfc := by
    rw [Tree.bodies_object]
    simp only [List.mem_flatMap, forall_exists_index, and_imp]
    rw [show (∀ b m, m ∈ Ms → b ∈ m.1 :: m.2.bodies → Rfc b) ↔
        ∀ m ∈ Ms, Rfc m.1 ∧ ∀ b ∈ m.2.bodies, Rfc b from
      ⟨fun h m hm => List.forall_mem_cons.mp fun b hb => h b m hm hb,
        fun h b m hm hb => List.forall_mem_cons.mpr (h m hm) b hb⟩,
      forall₂_forall_iff (P := fun f => QuotableString std.printable f.1 ∧
        QuotableValue std.printable f.2)
        (fun f m hr => by rw [hr.1, Strconv.quoteBody_rfc, hr.2.rfc]) h]
    constructor
    · exact fun hq => .object (fun f hf => (hq f (hperm.mem_iff.mpr hf)).1)
        fun f hf => (hq f (hperm.mem_iff.mpr hf)).2
    · intro hq
      cases hq with
      | object hkeys hvals =>
        exact fun f hf => ⟨hkeys f (hperm.mem_iff.mp hf), hvals f (hperm.mem_iff.mp hf)⟩
  denote := by
    intro hq
    cases hq with
    | object hkeys hvals =>
      have hread : ∀ f ∈ fields', ∀ m, WritesField std (Renders std) f m →
          ((Json.stringValue m.1).bind fun k => m.2.denote.map fun v => (k, v)) =
            some (f.1, f.2.data) := by
        intro f hf m hr
        have hmem := hperm.mem_iff.mp hf
        rw [hr.1, Strconv.stringValue_quoteBody (hkeys f hmem), Option.bind_some,
          hr.2.denote (hvals f hmem),
          Option.map_some]
      have hsorted : Json.Ascending (fields.map fun f => (f.1, f.2.data)) :=
        List.pairwise_map.mpr hasc
      rw [Tree.denote_object, forall₂_mapM h hread, Option.map_some,
        Json.putAll_eq hsorted (hperm.map _), Value.data, fieldsData_eq]

theorem kept_renders : Kept std (Renders std) where
  null := ⟨iff_of_true (fun b hb => by cases hb) .null, fun _ => rfl⟩
  string s := renders_string ⟨.string, fun h => by cases h; assumption⟩ rfl
  bool b := ⟨iff_of_true (fun c hc => by cases hc) (.bool b), fun _ => rfl⟩
  int _ _ h := renders_number h (.int _) rfl
  uint h := renders_number h (.uint _) rfl
  bytes b := renders_string (iff_of_true (Strconv.encodeToString_quotable _ b) (.bytes b)) rfl
  list h := Renders.list h
  object hasc hperm h := Renders.object hasc hperm h

end

/-- A JSON text that every conforming parser reads back, strings that are not UTF-8 excepted. -/
def Emits (text : Bytes) (v : Value) : Prop :=
  (∃ T, Text Rfc text T) ∧
    (Strings (fun s => ∃ cs, s = Utf8.encode cs) v → ∀ parse, Json.Conforming parse →
      parse text = some v.data)

theorem emits_iff (std : Std) (orders : RangeOrders) (hv : Built v) :
    Emits (appendValue std orders v []) v ↔ QuotableValue std.printable v := by
  have hspace : Space [] := fun b hb => by cases hb
  obtain ⟨T, t, ht, hspell, hT⟩ := appendValue_writes orders kept_renders hv []
  have htext : Text Delimited (appendValue std orders v []) T :=
    ⟨[], t, [], hspace, hspell, hspace, by simpa using ht⟩
  constructor
  · rintro ⟨⟨T', hT'⟩, -⟩
    obtain rfl := htext.unique (fun _ h => h) (fun _ h => h.delimited) hT'
    exact hT.rfc.mp hT'.bodies
  · intro hq
    have hrfc : Text Rfc (appendValue std orders v []) T :=
      htext.of_bodies fun b hb _ => hT.rfc.mpr hq b hb
    exact ⟨⟨T, hrfc⟩, fun _ parse hparse => hparse _ T _ hrfc (hT.denote hq)⟩

/-- The encoders emit JSON that reads back exactly for the quotable values. -/
theorem encoders_emit_json_iff (std : Std) {v : Value} (hv : Built v) :
    (∀ orders room, Emits (marshalJSON std v) v ∧ Emits (marshalJSONFast std orders v) v ∧
      Emits (marshalJSONWithArena std room v) v ∧
        Emits (marshalJSONFastWithArena std orders room v) v) ↔
      QuotableValue std.printable v := by
  constructor
  · intro h
    exact (emits_iff std sortedKeys hv).mp (h sortedKeys true).1
  · intro hq orders room
    have hsorted := (emits_iff std sortedKeys hv).mpr hq
    have hfast := (emits_iff std orders hv).mpr hq
    cases room with
    | true => exact ⟨hsorted, hfast, hsorted, hfast⟩
    | false => exact ⟨hsorted, hfast, hsorted, hfast⟩

theorem encoders_emit_labels :
    Emits (marshalJSON latinStd (.object [([0x61], .list [.int 1, .string [0x0A]])]))
      (.object [([0x61], .list [.int 1, .string [0x0A]])]) := by
  have hbuilt : Built (.object [([0x61], .list [.int 1, .string [0x0A]])]) := by
    refine .object (List.pairwise_singleton _ _) (List.forall_mem_singleton.mpr (.list ?_))
    exact List.forall_mem_cons.mpr ⟨.int (by norm_num) (by norm_num),
      List.forall_mem_singleton.mpr (.string _)⟩
  have hkey : QuotableString latinPrintable [0x61] :=
    ⟨['a'], rfl, List.forall_mem_singleton.mpr (.inr (.inr (.inl rfl)))⟩
  have hline : QuotableString latinPrintable [0x0A] :=
    ⟨['\n'], rfl, List.forall_mem_singleton.mpr (.inr (.inr (.inr (.inl (by decide)))))⟩
  refine (((encoders_emit_json_iff latinStd hbuilt).mpr ?_) sortedKeys true).1
  refine .object (List.forall_mem_singleton.mpr hkey) (List.forall_mem_singleton.mpr (.list ?_))
  exact List.forall_mem_cons.mpr ⟨.int 1, List.forall_mem_singleton.mpr (.string hline)⟩

/-- The control character U+0001 is written as `\x01`, which JSON does not know. -/
theorem control_character_rejected :
    Built (.string [0x01]) ∧ marshalJSON latinStd (.string [0x01]) = [0x22, 0x5C, 0x78, 0x30,
      0x31, 0x22] ∧
      ¬ ∃ T, Text Rfc (marshalJSON latinStd (.string [0x01])) T := by
  have htext : marshalJSON latinStd (.string [0x01]) = [0x22, 0x5C, 0x78, 0x30, 0x31, 0x22] := by
    decide +kernel
  refine ⟨.string _, htext, ?_⟩
  rintro ⟨T, hT⟩
  have hread := (Json.read_eq_some fun _ => Iff.rfl).mpr (hT.of_bodies fun _ _ hb => hb.delimited)
  rw [htext] at hread
  obtain rfl : Tree.string [0x5C, 0x78, 0x30, 0x31] = T := Option.some.inj hread
  exact absurd (hT.bodies _ (List.mem_singleton.mpr rfl))
    (Json.not_rfc_escape (by decide) (by decide) _)

end Foundation.ExtensionJson
