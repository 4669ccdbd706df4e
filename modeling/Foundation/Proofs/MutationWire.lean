import Foundation.Sanity.RecordGet
import Foundation.Sanity.TrimBytes
import Foundation.Spec.MutationWire

/-! A record that travels as a mutation arrives as it was sent, but for its null fields, which carry
no scalar and are left out, and for a zero timestamp, which arrives as the epoch. -/

namespace Foundation

open Go

theorem rawValue_raw (b : List UInt8) (h : trimBytes b ≠ []) :
    rawValue (rawValue b).raw = rawValue b := by
  simp [rawValue, h, trimBytes_trimBytes]

namespace Hermes

open Projectiongw

section fields
variable {n : ExactNumerals} {v : RecordValue}

theorem scalar_null (h : v.kind = .null) : scalarToProto n.toNumerals v = none := by
  rw [scalarToProto, h]

theorem scalar_round_trip (hv : Constructed n.toNumerals v) (h : v.kind ≠ .null) :
    ∃ s, scalarToProto n.toNumerals v = some s ∧
      scalarFromProto n.toNumerals (.scalar s) = .ok v := by
  cases hv with
  | string s => exact ⟨_, rfl, rfl⟩
  | bool b => cases b <;> exact ⟨_, rfl, rfl⟩
  | int i hlo hhi =>
    refine ⟨.int64 i, ?_, rfl⟩
    change (n.parseInt i.repr).map _ = _
    rw [n.parseInt_repr i hlo hhi, Option.map_some]
  | uint k hk =>
    refine ⟨.uint64 k, ?_, rfl⟩
    change (n.parseUint k.repr).map _ = _
    rw [n.parseUint_repr k hk, Option.map_some]
  | float f =>
    obtain ⟨g, hparse, hformat⟩ := n.parseFloat_format f
    refine ⟨.double g, ?_, ?_⟩
    · change (n.parseFloat (n.formatFloat f)).map _ = _
      rw [hparse, Option.map_some]
    · change Except.ok (floatValue n.formatFloat g) = _
      rw [floatValue, hformat, floatValue]
  | raw b =>
    by_cases hb : trimBytes b = []
    · simp [rawValue, hb] at h
    · refine ⟨.bytes (rawValue b).raw, ?_, ?_⟩
      · simp [scalarToProto, rawValue, hb]
      · change Except.ok (rawValue (rawValue b).raw) = _
        rw [rawValue_raw b hb]

/-- Of the fields of a normalized record those that are not null arrive, in their order. -/
theorem fieldsFromProto_fieldsToProto {fields data : RecordData} {seen : List String}
    (hd : RecordData.Distinct fields) (hseen : ∀ field ∈ fields, field.name ∉ seen)
    (hv : ∀ field ∈ fields, Constructed n.toNumerals field.value) :
    fieldsFromProto n.toNumerals
        ((fieldsToProto n.toNumerals fields).map fun field => (field.name, .scalar field.value))
          seen data =
      .ok (data ++ fields.filter fun field => field.value.kind ≠ .null) := by
  induction fields generalizing data seen with
  | nil => simp [fieldsToProto, fieldsFromProto]
  | cons field rest ih =>
    have hnodup := hd.nodup
    rw [List.map_cons, List.nodup_cons] at hnodup
    have hd' : RecordData.Distinct rest :=
      ⟨fun g hg => hd.trimmed g (List.mem_cons_of_mem _ hg),
        fun g hg => hd.nonblank g (List.mem_cons_of_mem _ hg),
        hnodup.2⟩
    have hv' : ∀ g ∈ rest, Constructed n.toNumerals g.value :=
      fun g hg => hv g (List.mem_cons_of_mem _ hg)
    have hseen' : ∀ g ∈ rest, g.name ∉ seen := fun g hg => hseen g (List.mem_cons_of_mem _ hg)
    by_cases hnull : field.value.kind = .null
    · have hskip : fieldsToProto n.toNumerals (field :: rest) =
          fieldsToProto n.toNumerals rest := by
        simp [fieldsToProto, scalar_null hnull]
      rw [hskip, ih hd' hseen' hv', List.filter_cons_of_neg (by simpa using hnull)]
    · obtain ⟨s, hs, hback⟩ := scalar_round_trip (hv field List.mem_cons_self) hnull
      have htake : fieldsToProto n.toNumerals (field :: rest) =
          ⟨field.name, s⟩ :: fieldsToProto n.toNumerals rest := by
        simp [fieldsToProto, hs]
      have hfresh : ∀ g ∈ rest, g.name ∉ field.name :: seen := by
        intro g hg hin
        rcases List.mem_cons.mp hin with heq | hin
        · exact hnodup.1 (List.mem_map.mpr ⟨g, hg, heq⟩)
        · exact hseen' g hg hin
      rw [htake, List.map_cons, fieldsFromProto]
      simp only [hd.trimmed field List.mem_cons_self, hd.nonblank field List.mem_cons_self,
        hseen field List.mem_cons_self, if_false, hback]
      rw [ih hd' hfresh hv', List.filter_cons_of_pos (by simpa using hnull), List.append_assoc]
      rfl

end fields

theorem unixEpoch_ne_zero : unixEpoch ≠ 0 := by decide

theorem timestamp_round_trip (t : Time) :
    timestampTime (if t = 0 then none else some t) = t ↔ t ≠ 0 := by
  by_cases h : t = 0
  · subst h
    simpa [timestampTime] using unixEpoch_ne_zero
  · simp [timestampTime, h]

/-- A stored record comes back from its mutation as it was just when it has no null field and no
zero timestamp. -/
theorem mutation_round_trip_iff (n : ExactNumerals) (stored : StoredRecord n.toNumerals)
    (operation : Operation) (version : ℕ) :
    recordFromMutation n.toNumerals
        (mutationFromRecord n.toNumerals stored.record operation version true) = .ok stored.record ↔
      (∀ field ∈ stored.record.data, field.value.kind ≠ .null) ∧
        stored.record.createdAt ≠ 0 ∧ stored.record.updatedAt ≠ 0 := by
  obtain ⟨rec, hdomain, hcollection, horg, hid, hnormal, hvalues⟩ := stored
  have hfields := @fieldsFromProto_fieldsToProto n rec.data [] [] hnormal.distinct
    (fun _ _ => List.not_mem_nil) hvalues
  have hsub : RecordData.Normal (rec.data.filter fun field => field.value.kind ≠ .null) :=
    ⟨fun g hg => hnormal.trimmed g (List.mem_of_mem_filter hg),
      fun g hg => hnormal.nonblank g (List.mem_of_mem_filter hg), hnormal.increasing.filter _⟩
  have hresult :
      recordFromMutation n.toNumerals (mutationFromRecord n.toNumerals rec operation version true) =
      .ok { rec with
        data := rec.data.filter fun field => field.value.kind ≠ .null
        createdAt := timestampTime (if rec.createdAt = 0 then none else some rec.createdAt)
        updatedAt := timestampTime (if rec.updatedAt = 0 then none else some rec.updatedAt) } := by
    unfold recordFromMutation mutationFromRecord
    simp only [hfields, List.nil_append, RecordData.normalize_of_normal hsub, hdomain,
      hcollection, horg, hid,
      if_true]
  rw [hresult]
  constructor
  · intro h
    have heq := Except.ok.inj h
    refine ⟨fun field hf => ?_, (timestamp_round_trip _).mp (congrArg DomainRecord.createdAt heq),
      (timestamp_round_trip _).mp (congrArg DomainRecord.updatedAt heq)⟩
    have hall := List.filter_eq_self.mp (congrArg DomainRecord.data heq) field hf
    simpa using hall
  · rintro ⟨hnull, hcreated, hupdated⟩
    have hall : (rec.data.filter fun field => field.value.kind ≠ .null) = rec.data :=
      List.filter_eq_self.mpr fun field hf => by simpa using hnull field hf
    rw [hall, (timestamp_round_trip _).mpr hcreated, (timestamp_round_trip _).mpr hupdated]

/-! Numerals over the decimal digits, with a float written as the number its bits make. -/

def parseDigits (ds : List Char) : Option ℕ :=
  if ds ≠ [] ∧ ds.all Char.isDigit then some (Nat.ofDigitChars 10 ds 0) else none

theorem parseDigits_repr (k : ℕ) : parseDigits k.repr.toList = some k := by
  have hne : k.repr.toList ≠ [] := fun h => repr_ne_empty k (String.toList_inj.mp (h.trans rfl))
  have hall : k.repr.toList.all Char.isDigit = true :=
    List.all_eq_true.mpr fun c hc => isDigit_of_mem_repr hc
  rw [parseDigits, if_pos ⟨hne, hall⟩, Nat.toList_repr,
    Nat.ofDigitChars_toDigits (by decide) (by decide)]

def parseDecimal (s : String) : Option ℤ :=
  if s.toList.head? = some '-' then (parseDigits s.toList.tail).map fun k => -(k : ℤ)
  else (parseDigits s.toList).map fun k => (k : ℤ)

theorem parseDecimal_repr (i : ℤ) : parseDecimal i.repr = some i := by
  cases i with
  | ofNat k =>
    have hhead : k.repr.toList.head? ≠ some '-' := fun h => by
      have := isDigit_of_mem_repr (List.mem_of_mem_head? h)
      revert this
      decide
    change parseDecimal k.repr = _
    rw [parseDecimal, if_neg hhead, parseDigits_repr]
    rfl
  | negSucc k =>
    change parseDecimal ("-" ++ (k + 1).repr) = _
    have htext : ("-" ++ (k + 1).repr).toList = '-' :: (k + 1).repr.toList := by
      rw [String.toList_append]
      rfl
    rw [parseDecimal, htext, List.head?_cons, if_pos rfl, List.tail_cons, parseDigits_repr]
    rfl

def decimalNumerals : ExactNumerals where
  parseInt := parseDecimal
  parseUint s := parseDigits s.toList
  parseFloat s := (parseDigits s.toList).map fun k => ⟨BitVec.ofNat 64 k⟩
  formatFloat f := f.bits.toNat.repr
  parseInt_repr i _ _ := parseDecimal_repr i
  parseUint_repr k _ := parseDigits_repr k
  parseFloat_format f :=
    ⟨f, by rw [parseDigits_repr, Option.map_some, BitVec.ofNat_toNat, BitVec.setWidth_eq], rfl⟩

/-- An order with a null note, stored at time 1. -/
def nullNote : StoredRecord decimalNumerals.toNumerals where
  record :=
    { domain := "shop", collection := "orders", organizationID := "acme", recordID := "1"
      data := [⟨"note", rawValue []⟩, ⟨"organization_id", stringValue "acme"⟩], createdAt :=
        1, updatedAt := 1 }
  domain := by decide
  collection := by decide
  organizationID := by decide
  recordID := by decide
  normal := ⟨by decide, by decide, by decide⟩
  constructed := by
    intro field hf
    simp only [List.mem_cons, List.not_mem_nil, or_false] at hf
    rcases hf with rfl | rfl
    · exact .raw []
    · exact .string "acme"

/-- The note is gone where the mutation is applied. -/
theorem null_note_lost :
    (recordFromMutation decimalNumerals.toNumerals
      (mutationFromRecord decimalNumerals.toNumerals nullNote.record .upsert 1 true)).toOption.map
        (·.data) =
      some [⟨"organization_id", stringValue "acme"⟩] ∧
    nullNote.record.data ≠ [⟨"organization_id", stringValue "acme"⟩] := by
  decide +kernel

end Hermes

end Foundation
