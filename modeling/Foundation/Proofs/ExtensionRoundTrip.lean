import Foundation.Proofs.Encoding
import Foundation.Proofs.RecordJson

/-! What the encoders write for a value is read back as that value, whatever bytes its strings and
keys hold and whatever the order of the loops over its objects. -/

namespace Foundation.ExtensionJson

open Json (Tree Delimited Spells Text Space beginObject endObject)
open Strconv (goString quoteBody)
open RecordJson (forEachObjectField forEachObjectField_members text_of_spells trimBytes_of_ends)

/-- Values built from null, strings, booleans, 64-bit integers, lists and objects. -/
inductive Plain : Value → Prop
  | null : Plain .null
  | string (s : Bytes) : Plain (.string s)
  | bool (b : Bool) : Plain (.bool b)
  | int {i : ℤ} : -2 ^ 63 ≤ i → i < 2 ^ 63 → Plain (.int i)
  | list {items : List Value} : (∀ v ∈ items, Plain v) → Plain (.list items)
  | object {fields : List (Bytes × Value)} : Json.Ascending fields → (∀ f ∈ fields, Plain f.2) →
      Plain (.object fields)

variable {v : Value}

theorem Plain.built (h : Plain v) : Built v := by
  induction h with
  | null => exact .null
  | string s => exact .string s
  | bool b => exact .bool b
  | int hlo hhi => exact .int hlo hhi
  | list _ ih => exact .list ih
  | object hasc _ ih => exact .object hasc ih

/-- The parser reads the tree as the value, and an object's members as its fields. -/
structure Reads (std : Std) (v : Value) (T : Tree) : Prop where
  value : Plain v → interpret std T = some v
  members : Plain v → ∀ fields, v = .object fields →
    ∃ ms seen, T = .object ms ∧ ms.mapM (interpretField std) = some seen ∧ seen.Perm fields

section
variable {std : Std}

theorem reads_scalar {T : Tree} (hv : ∀ fields, v ≠ .object fields)
    (h : Plain v → interpret std T = some v) :
    Reads std v T :=
  ⟨h, fun _ fields heq => absurd heq (hv fields)⟩

theorem reads_list {items : List Value} {Ts : List Tree} (h : List.Forall₂ (Reads std) items Ts) :
    Reads std (.list items) (.array Ts) := by
  refine reads_scalar (fun _ => Value.noConfusion) fun hplain => ?_
  cases hplain with
  | list hitems =>
    rw [interpret_array, forall₂_mapM h fun v hv T hr => hr.value (hitems v hv), List.map_id',
      Option.map_some]

theorem reads_object {fields fields' : List (Bytes × Value)} {Ms : List (Bytes × Tree)}
    (hasc : Json.Ascending fields) (hperm : fields'.Perm fields)
    (h : List.Forall₂ (WritesField std (Reads std)) fields' Ms) :
    Reads std (.object fields) (.object Ms) := by
  have hread : Plain (.object fields) → Ms.mapM (interpretField std) = some fields' := by
    intro hplain
    cases hplain with
    | object _ hfields =>
      have hfield : ∀ f ∈ fields', ∀ m, WritesField std (Reads std) f m →
          interpretField std m = some f := by
        intro f hf m hr
        rw [interpretField, hr.1, Strconv.goString_quoteBody, Option.bind_some,
          hr.2.value (hfields f (hperm.mem_iff.mp hf)), Option.map_some]
      rw [forall₂_mapM h hfield, List.map_id']
  refine ⟨fun hplain => ?_, fun hplain given heq => ?_⟩
  · rw [interpret_object, hread hplain, Option.map_some, Json.putAll_eq hasc hperm]
  · obtain rfl := Value.object.inj heq
    exact ⟨Ms, fields', rfl, hread hplain, hperm⟩

theorem kept_reads : Kept std (Reads std) where
  null := reads_scalar (fun _ => Value.noConfusion) fun _ => rfl
  string s := reads_scalar (fun _ => Value.noConfusion) fun _ =>
    congrArg (Option.map Value.string) (Strconv.goString_quoteBody std.printable s)
  bool _ := reads_scalar (fun _ => Value.noConfusion) fun _ => rfl
  int hlo hhi h := reads_scalar (fun _ => Value.noConfusion) fun _ =>
    congrArg Except.toOption (FitsInt64.value std h hlo hhi)
  uint _ := reads_scalar (fun _ => Value.noConfusion) fun hplain => by cases hplain
  bytes _ := reads_scalar (fun _ => Value.noConfusion) fun hplain => by cases hplain
  list h := reads_list h
  object hasc hperm h := reads_object hasc hperm h

/-- The text of an object without members, with spaces between the braces. -/
theorem forEachObjectField_empty {w : Bytes} (hw : Space w)
    (htrim : trimBytes (beginObject :: (w ++ [endObject])) = beginObject :: (w ++ [endObject])) :
    forEachObjectField std (beginObject :: (w ++ [endObject])) = .ok [] := by
  have hopen : Json.expect beginObject (Json.skipSpace (beginObject :: (w ++ [endObject]))) =
      some (w ++ [endObject]) := by
    rw [Json.skipSpace_cons (by decide), Json.expect_self]
  have hclose : Json.expect endObject (Json.skipSpace (w ++ [endObject])) = some [] := by
    rw [Json.skipSpace_append hw, Json.skipSpace_cons (by decide), Json.expect_self]
  rw [forEachObjectField, htrim]
  simp only [if_neg (List.cons_ne_nil _ _), consumeByte, skipSpace, hopen, hclose]
  rfl

theorem forEachObjectField_reads {ms : List (Bytes × Tree)} {t : Bytes}
    (h : Spells Delimited (.value (.object ms)) t) {seen : List (Bytes × Value)}
    (hseen : ms.mapM (interpretField std) = some seen) :
    forEachObjectField std t = .ok seen := by
  have htrim := trimBytes_of_ends h.ends
  cases h with
  | noMembers hw =>
    obtain rfl : seen = [] := (Option.some.inj hseen).symm
    exact forEachObjectField_empty hw htrim
  | object ht => exact toOption_eq_some.mp ((forEachObjectField_members ht htrim).trans hseen)

theorem append_read (std : Std) (orders : RangeOrders) (hv : Plain v) :
    decodeValueBytes std (appendValue std orders v []) = .ok v ∧
      ∀ fields, v = .object fields →
        ∃ seen, forEachObjectField std (appendValue std orders v []) = .ok seen ∧
          seen.Perm fields := by
  obtain ⟨T, t, ht, hspell, hreads⟩ := appendValue_writes orders kept_reads hv.built []
  rw [ht, List.nil_append]
  refine ⟨decodeValueBytes_eq_ok.mpr ⟨T, Text.trim (text_of_spells hspell), hreads.value hv⟩,
    fun fields heq => ?_⟩
  obtain ⟨ms, seen, rfl, hseen, hperm⟩ := hreads.members hv fields heq
  exact ⟨seen, forEachObjectField_reads hspell hseen, hperm⟩

end

/-- Both encodings of a value are decoded to it, and the fields visited in the text of an object are
its fields, each once. -/
theorem json_round_trip (std : Std) (orders : RangeOrders) {v : Value} (hv : Plain v) :
    decodeValueBytes std (marshalJSON std v) = .ok v ∧
      decodeValueBytes std (marshalJSONFast std orders v) = .ok v ∧
      ∀ fields, v = .object fields →
        (∃ seen, forEachObjectField std (marshalJSON std v) = .ok seen ∧ seen.Perm fields) ∧
        ∃ seen, forEachObjectField std (marshalJSONFast std orders v) = .ok seen ∧
          seen.Perm fields := by
  obtain ⟨hsorted, hsortedFields⟩ := append_read std sortedKeys hv
  obtain ⟨hfast, hfastFields⟩ := append_read std orders hv
  exact ⟨hsorted, hfast, fun fields heq => ⟨hsortedFields fields heq, hfastFields fields heq⟩⟩

def awkward : Value :=
  .object [([0xFF, 0x22], .list [.string [0x5C, 0x22, 0x00], .int (-7), .null])]

theorem awkward_round_trip :
    decodeValueBytes latinStd (marshalJSON latinStd awkward) = .ok awkward := by
  have hplain : Plain awkward := by
    refine .object (List.pairwise_singleton _ _) fun f hf => ?_
    rw [List.mem_singleton.mp hf]
    refine .list fun v hv => ?_
    simp only [List.mem_cons, List.not_mem_nil, or_false] at hv
    rcases hv with rfl | rfl | rfl
    · exact .string _
    · exact .int (by norm_num) (by norm_num)
    · exact .null
  exact (json_round_trip latinStd sortedKeys hplain).1

end Foundation.ExtensionJson
