import Mathlib.Data.List.TakeWhile
import Foundation.Lib.Utf8

/-! JSON texts as byte strings: the grammar of RFC 8259, a recursive-descent reader that is sound
and complete for it, and the data a text denotes. The grammar takes the language of string bodies
as a parameter, so that a dialect differing only there is an instance of it. -/

namespace Foundation.Json

/-- A JSON text with its strings and numbers as they are spelled. -/
inductive Tree where
  | null
  | bool (b : Bool)
  | number (text : Bytes)
  | string (body : Bytes)
  | array (items : List Tree)
  | object (members : List (Bytes × Tree))

abbrev beginArray : UInt8 := 0x5B
abbrev endArray : UInt8 := 0x5D
abbrev beginObject : UInt8 := 0x7B
abbrev endObject : UInt8 := 0x7D
abbrev nameSeparator : UInt8 := 0x3A
abbrev valueSeparator : UInt8 := 0x2C
abbrev quotationMark : UInt8 := 0x22
abbrev escape : UInt8 := 0x5C

def nullText : Bytes := [0x6E, 0x75, 0x6C, 0x6C]

def boolText : Bool → Bytes
  | true => [0x74, 0x72, 0x75, 0x65]
  | false => [0x66, 0x61, 0x6C, 0x73, 0x65]

def quoted (body : Bytes) : Bytes := quotationMark :: (body ++ [quotationMark])

def isSpace (b : UInt8) : Bool := b == 0x20 || b == 0x09 || b == 0x0A || b == 0x0D

def isDigit (b : UInt8) : Bool := decide (0x30 ≤ b) && decide (b ≤ 0x39)

def Space (w : Bytes) : Prop := ∀ b ∈ w, isSpace b = true

def Digits (ds : Bytes) : Prop := ∀ d ∈ ds, isDigit d = true

inductive IsInt : Bytes → Prop
  | zero : IsInt [0x30]
  | digits {d : UInt8} {ds : Bytes} : isDigit d = true → d ≠ 0x30 → Digits ds → IsInt (d :: ds)

inductive IsFrac : Bytes → Prop
  | none : IsFrac []
  | some {ds : Bytes} : ds ≠ [] → Digits ds → IsFrac (0x2E :: ds)

inductive IsExp : Bytes → Prop
  | none : IsExp []
  | some {e : UInt8} {sign ds : Bytes} : e = 0x65 ∨ e = 0x45 →
    sign ∈ [[], [0x2B], [0x2D]] → ds ≠ [] →
      Digits ds → IsExp (e :: (sign ++ ds))

inductive IsNumber : Bytes → Prop
  | mk {m i f x : Bytes} : m ∈ [[], [0x2D]] → IsInt i → IsFrac f → IsExp x →
    IsNumber (m ++ (i ++ (f ++ x)))

/-- What a piece of text between structural characters can stand for. -/
inductive Part where
  | value (v : Tree)
  | items (vs : List Tree)
  | members (ms : List (Bytes × Tree))

/-- The grammar, with `S` the language of string bodies. -/
inductive Spells (S : Bytes → Prop) : Part → Bytes → Prop
  | null : Spells S (.value .null) nullText
  | bool (b : Bool) : Spells S (.value (.bool b)) (boolText b)
  | number {t : Bytes} : IsNumber t → Spells S (.value (.number t)) t
  | string {b : Bytes} : S b → Spells S (.value (.string b)) (quoted b)
  | noItems {w : Bytes} : Space w → Spells S (.value (.array [])) (beginArray :: (w ++ [endArray]))
  | array {vs : List Tree} {t : Bytes} : Spells S (.items vs) t →
      Spells S (.value (.array vs)) (beginArray :: (t ++ [endArray]))
  | noMembers {w : Bytes} : Space w →
    Spells S (.value (.object [])) (beginObject :: (w ++ [endObject]))
  | object {ms : List (Bytes × Tree)} {t : Bytes} : Spells S (.members ms) t →
      Spells S (.value (.object ms)) (beginObject :: (t ++ [endObject]))
  | item {v : Tree} {w t w' : Bytes} : Space w → Spells S (.value v) t → Space w' →
      Spells S (.items [v]) (w ++ (t ++ w'))
  | items {v : Tree} {vs : List Tree} {w t w' rest : Bytes} : Space w →
    Spells S (.value v) t → Space w' →
      Spells S (.items vs) rest →
        Spells S (.items (v :: vs)) (w ++ (t ++ (w' ++ valueSeparator :: rest)))
  | member {k : Bytes} {v : Tree} {w w₁ w₂ t w' : Bytes} : Space w → S k → Space w₁ → Space w₂ →
      Spells S (.value v) t → Space w' →
      Spells S (.members [(k, v)]) (w ++ (quoted k ++ (w₁ ++ nameSeparator :: (w₂ ++ (t ++ w')))))
  | members {k : Bytes} {v : Tree} {ms : List (Bytes × Tree)} {w w₁ w₂ t w' rest : Bytes} :
    Space w → S k →
      Space w₁ → Space w₂ → Spells S (.value v) t → Space w' → Spells S (.members ms) rest →
      Spells S (.members ((k, v) :: ms))
        (w ++ (quoted k ++ (w₁ ++ nameSeparator :: (w₂ ++ (t ++ (w' ++ valueSeparator :: rest))))))

/-- A JSON text: a value between spaces. -/
def Text (S : Bytes → Prop) (text : Bytes) (v : Tree) : Prop :=
  ∃ w t w', Space w ∧ Spells S (.value v) t ∧ Space w' ∧ text = w ++ (t ++ w')

/-- String bodies that end at the first quotation mark not behind an escape. -/
inductive Delimited : Bytes → Prop
  | nil : Delimited []
  | plain {c : UInt8} {b : Bytes} : c ≠ quotationMark → c ≠ escape → 0x20 ≤ c → Delimited b →
    Delimited (c :: b)
  | escaped (c : UInt8) {b : Bytes} : Delimited b → Delimited (escape :: c :: b)

/-! ### The reader -/

def skipSpace (s : Bytes) : Bytes := s.dropWhile isSpace

def expect (c : UInt8) : Bytes → Option Bytes
  | [] => none
  | d :: rest => if d = c then some rest else none

def expectText : Bytes → Bytes → Option Bytes
  | [], s => some s
  | c :: text, s => (expect c s).bind (expectText text)

def scanBody : Bytes → Option (Bytes × Bytes)
  | [] => none
  | c :: rest =>
    if c = escape then
      match rest with
      | [] => none
      | d :: rest => (scanBody rest).map fun r => (c :: d :: r.1, r.2)
    else if c = quotationMark then some ([], rest)
    else if c < 0x20 then none
    else (scanBody rest).map fun r => (c :: r.1, r.2)

def takeSign : Bytes → Bytes × Bytes
  | [] => ([], [])
  | c :: rest => if c = 0x2D then ([c], rest) else ([], c :: rest)

def takeInt : Bytes → Option (Bytes × Bytes)
  | [] => none
  | c :: rest =>
    if c = 0x30 then some ([c], rest)
    else if isDigit c then some (c :: rest.takeWhile isDigit, rest.dropWhile isDigit)
    else none

def takeDigits (s : Bytes) : Option (Bytes × Bytes) :=
  if s.takeWhile isDigit = [] then none else some (s.takeWhile isDigit, s.dropWhile isDigit)

def takeFrac : Bytes → Option (Bytes × Bytes)
  | [] => some ([], [])
  | c :: rest =>
    if c = 0x2E then (takeDigits rest).map fun r => (c :: r.1, r.2) else some ([], c :: rest)

def takeExpSign : Bytes → Bytes × Bytes
  | [] => ([], [])
  | c :: rest => if c = 0x2B ∨ c = 0x2D then ([c], rest) else ([], c :: rest)

def takeExp : Bytes → Option (Bytes × Bytes)
  | [] => some ([], [])
  | c :: rest =>
    if c = 0x65 ∨ c = 0x45 then
      (takeDigits (takeExpSign rest).2).map fun r => (c :: ((takeExpSign rest).1 ++ r.1), r.2)
    else some ([], c :: rest)

def takeNumber (s : Bytes) : Option (Bytes × Bytes) :=
  (takeInt (takeSign s).2).bind fun i =>
    (takeFrac i.2).bind fun f =>
      (takeExp f.2).map fun x => ((takeSign s).1 ++ (i.1 ++ (f.1 ++ x.1)), x.2)

mutual

/-- The value the bytes begin with, after spaces, and what follows it. -/
def readValue : ℕ → Bytes → Option (Tree × Bytes)
  | 0, _ => none
  | fuel + 1, s =>
    match skipSpace s with
    | [] => none
    | c :: rest =>
      if c = 0x6E then (expectText nullText (c :: rest)).map fun r => (.null, r)
      else if c = 0x74 then (expectText (boolText true) (c :: rest)).map fun r => (.bool true, r)
      else if c = 0x66 then (expectText (boolText false) (c :: rest)).map fun r => (.bool false, r)
      else if c = quotationMark then (scanBody rest).map fun r => (.string r.1, r.2)
      else if c = beginObject then
        match expect endObject (skipSpace rest) with
        | some r => some (.object [], r)
        | none => (readMembers fuel rest).map fun r => (.object r.1, r.2)
      else if c = beginArray then
        match expect endArray (skipSpace rest) with
        | some r => some (.array [], r)
        | none => (readItems fuel rest).map fun r => (.array r.1, r.2)
      else (takeNumber (c :: rest)).map fun r => (.number r.1, r.2)

def readItems : ℕ → Bytes → Option (List Tree × Bytes)
  | 0, _ => none
  | fuel + 1, s =>
    (readValue fuel s).bind fun v =>
      match expect endArray (skipSpace v.2) with
      | some r => some ([v.1], r)
      | none => (expect valueSeparator (skipSpace v.2)).bind fun r =>
          (readItems fuel r).map fun vs => (v.1 :: vs.1, vs.2)

def readMembers : ℕ → Bytes → Option (List (Bytes × Tree) × Bytes)
  | 0, _ => none
  | fuel + 1, s =>
    (expect quotationMark (skipSpace s)).bind fun r =>
      (scanBody r).bind fun k =>
        (expect nameSeparator (skipSpace k.2)).bind fun r =>
          (readValue fuel r).bind fun v =>
            match expect endObject (skipSpace v.2) with
            | some r => some ([(k.1, v.1)], r)
            | none => (expect valueSeparator (skipSpace v.2)).bind fun r =>
                (readMembers fuel r).map fun ms => ((k.1, v.1) :: ms.1, ms.2)

end

def read (text : Bytes) : Option Tree :=
  (readValue (2 * text.length) text).bind fun v => if skipSpace v.2 = [] then some v.1 else none

/-! ### Spaces, strings and numbers -/

theorem takeWhile_stop {p : UInt8 → Bool} {ds r : Bytes} (hd : ∀ d ∈ ds, p d = true)
    (hr : ∀ c ∈ r.head?, p c = false) : (ds ++ r).takeWhile p = ds ∧ (ds ++ r).dropWhile p = r := by
  rw [List.takeWhile_append_of_pos hd, List.dropWhile_append_of_pos hd]
  cases r with
  | nil => simp
  | cons c r => simp [hr c rfl]

theorem takeWhile_all (p : UInt8 → Bool) (s : Bytes) : ∀ d ∈ s.takeWhile p, p d = true :=
  List.all_eq_true.mp List.all_takeWhile

variable {w : Bytes} {c : UInt8} {s r : Bytes} {fuel : ℕ} {v : Tree} {S : Bytes → Prop} {t : Bytes}

theorem skipSpace_append (hw : Space w) (s : Bytes) : skipSpace (w ++ s) = skipSpace s :=
  List.dropWhile_append_of_pos hw

theorem skipSpace_cons (hc : isSpace c = false) (s : Bytes) : skipSpace (c :: s) = c :: s := by
  rw [skipSpace, List.dropWhile_cons_of_neg (by simp [hc])]

theorem skipSpace_spec (s : Bytes) : ∃ w, Space w ∧ s = w ++ skipSpace s :=
  ⟨s.takeWhile isSpace, takeWhile_all isSpace s, (List.takeWhile_append_dropWhile).symm⟩

theorem expect_eq_some : expect c s = some r ↔ s = c :: r := by
  cases s with
  | nil => simp [expect]
  | cons d s =>
    simp only [expect, Option.ite_none_right_eq_some, Option.some.injEq, List.cons.injEq]

theorem expect_self (c : UInt8) (r : Bytes) : expect c (c :: r) = some r := if_pos rfl

theorem expect_skipSpace (hc : isSpace c = false) (hw : Space w) (r : Bytes) :
    expect c (skipSpace (w ++ c :: r)) = some r := by
  rw [skipSpace_append hw, skipSpace_cons hc, expect, if_pos rfl]

theorem expect_skipSpace_eq_some (h : expect c (skipSpace s) = some r) :
    ∃ w, Space w ∧ s = w ++ c :: r := by
  obtain ⟨w, hw, hs⟩ := skipSpace_spec s
  exact ⟨w, hw, expect_eq_some.mp h ▸ hs⟩

theorem expectText_eq_some {text s r : Bytes} : expectText text s = some r ↔ s = text ++ r := by
  induction text generalizing s with
  | nil => simp [expectText, eq_comm]
  | cons c text ih =>
    simp only [expectText, Option.bind_eq_some_iff, expect_eq_some, ih, List.cons_append]
    exact ⟨fun ⟨_, h, h'⟩ => h' ▸ h, fun h => ⟨_, h, rfl⟩⟩

theorem scanBody_sound {s b r : Bytes} (h : scanBody s = some (b, r)) :
    Delimited b ∧ s = b ++ quotationMark :: r := by
  fun_induction scanBody s generalizing b with
  | case1 => cases h
  | case2 => cases h
  | case3 d rest ih =>
    obtain ⟨⟨b', r'⟩, hb, he⟩ := Option.map_eq_some_iff.mp h
    cases he
    obtain ⟨hd, rfl⟩ := ih hb
    exact ⟨.escaped d hd, rfl⟩
  | case4 =>
    cases h
    exact ⟨.nil, rfl⟩
  | case5 => cases h
  | case6 c rest hne hnq hlt ih =>
    obtain ⟨⟨b', r'⟩, hb, he⟩ := Option.map_eq_some_iff.mp h
    cases he
    obtain ⟨hd, rfl⟩ := ih hb
    exact ⟨.plain hnq hne (UInt8.not_lt.mp hlt) hd, rfl⟩

theorem scanBody_complete {b : Bytes} (h : Delimited b) (r : Bytes) :
    scanBody (b ++ quotationMark :: r) = some (b, r) := by
  induction h with
  | nil => rw [List.nil_append, scanBody.eq_def]; rfl
  | plain hnq hne hle _ ih =>
    rw [List.cons_append, scanBody.eq_def]
    simp only [if_neg hne, if_neg hnq, if_neg (UInt8.not_lt.mpr hle), ih, Option.map_some]
  | escaped c _ ih =>
    rw [List.cons_append, List.cons_append, scanBody.eq_def]
    simp only [if_true, ih, Option.map_some]

/-- Bytes that could still belong to a number. -/
def continuesNumber (c : UInt8) : Bool := isDigit c || c == 0x2E || c == 0x65 || c == 0x45

def Ends (r : Bytes) : Prop := ∀ c ∈ r.head?, continuesNumber c = false

theorem takeSign_sound (s : Bytes) : (takeSign s).1 ∈ ([[], [0x2D]] : List Bytes) ∧
    s = (takeSign s).1 ++ (takeSign s).2 := by
  cases s with
  | nil => exact ⟨by simp [takeSign], rfl⟩
  | cons c s =>
    rw [takeSign]
    split_ifs with h
    · exact ⟨by simp [h], rfl⟩
    · exact ⟨by simp, rfl⟩

theorem takeExpSign_sound (s : Bytes) : (takeExpSign s).1 ∈ ([[], [0x2B], [0x2D]] : List Bytes) ∧
    s = (takeExpSign s).1 ++ (takeExpSign s).2 := by
  cases s with
  | nil => exact ⟨by simp [takeExpSign], rfl⟩
  | cons c s =>
    rw [takeExpSign]
    split_ifs with h
    · exact ⟨by rcases h with rfl | rfl <;> simp, rfl⟩
    · exact ⟨by simp, rfl⟩

theorem takeInt_sound {s i r : Bytes} (h : takeInt s = some (i, r)) : IsInt i ∧ s = i ++ r := by
  cases s with
  | nil => cases h
  | cons c s =>
    rw [takeInt] at h
    split_ifs at h with h0 hd
    · cases h
      exact ⟨h0 ▸ .zero, rfl⟩
    · cases h
      exact ⟨.digits hd h0
        (takeWhile_all isDigit s), by rw [List.cons_append, List.takeWhile_append_dropWhile]⟩

theorem takeDigits_sound {s ds r : Bytes} (h : takeDigits s = some (ds, r)) :
    ds ≠ [] ∧ Digits ds ∧ s = ds ++ r := by
  rw [takeDigits] at h
  split_ifs at h with hne
  cases h
  exact ⟨hne, takeWhile_all isDigit s, (List.takeWhile_append_dropWhile).symm⟩

theorem takeFrac_sound {s f r : Bytes} (h : takeFrac s = some (f, r)) : IsFrac f ∧ s = f ++ r := by
  cases s with
  | nil => cases h; exact ⟨.none, rfl⟩
  | cons c s =>
    rw [takeFrac] at h
    split_ifs at h with hc
    · obtain ⟨⟨ds, r'⟩, hds, he⟩ := Option.map_eq_some_iff.mp h
      cases he
      obtain ⟨hne, hd, rfl⟩ := takeDigits_sound hds
      exact ⟨hc ▸ .some hne hd, rfl⟩
    · cases h
      exact ⟨.none, rfl⟩

theorem takeExp_sound {s x r : Bytes} (h : takeExp s = some (x, r)) : IsExp x ∧ s = x ++ r := by
  cases s with
  | nil => cases h; exact ⟨.none, rfl⟩
  | cons c s =>
    rw [takeExp] at h
    split_ifs at h with hc
    · obtain ⟨⟨ds, r'⟩, hds, he⟩ := Option.map_eq_some_iff.mp h
      cases he
      obtain ⟨hne, hd, hs⟩ := takeDigits_sound hds
      obtain ⟨hsign, hsplit⟩ := takeExpSign_sound s
      refine ⟨.some hc hsign hne hd, ?_⟩
      rw [List.cons_append, List.append_assoc, ← hs, ← hsplit]
    · cases h
      exact ⟨.none, rfl⟩

theorem takeNumber_sound {s n r : Bytes} (h : takeNumber s = some (n, r)) :
    IsNumber n ∧ s = n ++ r := by
  obtain ⟨⟨i, r₁⟩, hi, h⟩ := Option.bind_eq_some_iff.mp h
  obtain ⟨⟨f, r₂⟩, hf, h⟩ := Option.bind_eq_some_iff.mp h
  obtain ⟨⟨x, r₃⟩, hx, h⟩ := Option.map_eq_some_iff.mp h
  cases h
  obtain ⟨hm, hsplit⟩ := takeSign_sound s
  obtain ⟨hint, hr⟩ := takeInt_sound hi
  obtain ⟨hfrac, rfl⟩ := takeFrac_sound hf
  obtain ⟨hexp, rfl⟩ := takeExp_sound hx
  refine ⟨.mk hm hint hfrac hexp, ?_⟩
  rw [hr] at hsplit
  simpa only [List.append_assoc] using hsplit

theorem isDigit_of_head {r : Bytes} (h : Ends r) : ∀ c ∈ r.head?, isDigit c = false := by
  intro c hc
  have := h c hc
  simp only [continuesNumber, Bool.or_eq_false_iff] at this
  exact this.1.1.1

theorem takeDigits_complete {ds r : Bytes} (hne : ds ≠ []) (hd : Digits ds) (hr : Ends r) :
    takeDigits (ds ++ r) = some (ds, r) := by
  obtain ⟨ht, hdrop⟩ := takeWhile_stop hd (isDigit_of_head hr)
  rw [takeDigits, ht, hdrop, if_neg hne]

theorem takeInt_complete {i r : Bytes} (hi : IsInt i) (hr : ∀ c ∈ r.head?, isDigit c = false) :
    takeInt (i ++ r) = some (i, r) := by
  cases hi with
  | zero => rfl
  | digits hd h0 hds =>
    obtain ⟨ht, hdrop⟩ := takeWhile_stop hds hr
    rw [List.cons_append, takeInt, if_neg h0, if_pos hd, ht, hdrop]

theorem takeFrac_complete {f r : Bytes} (hf : IsFrac f) (hd : ∀ c ∈ r.head?, isDigit c = false)
    (hr : ∀ c ∈ r.head?, c ≠ 0x2E) : takeFrac (f ++ r) = some (f, r) := by
  cases hf with
  | none =>
    cases r with
    | nil => rfl
    | cons c r => rw [List.nil_append, takeFrac, if_neg (hr c rfl)]
  | some hne hds =>
    obtain ⟨ht, hdrop⟩ := takeWhile_stop hds hd
    rw [List.cons_append, takeFrac, if_pos rfl, takeDigits, ht, hdrop, if_neg hne]
    rfl

theorem ne_of_isDigit {d c : UInt8} (hd : isDigit d = true) (hc : isDigit c = false) : d ≠ c :=
  fun h => by rw [h, hc] at hd; cases hd

theorem takeExpSign_complete {sign ds r : Bytes}
    (hsign : sign ∈ ([[], [0x2B], [0x2D]] : List Bytes)) (hne : ds ≠ []) (hd : Digits ds) :
    takeExpSign (sign ++ (ds ++ r)) = (sign, ds ++ r) := by
  obtain ⟨d, ds, rfl⟩ := List.exists_cons_of_ne_nil hne
  have hdigit := hd d (by simp)
  simp only [List.mem_cons, List.not_mem_nil, or_false] at hsign
  rcases hsign with rfl | rfl | rfl
  · rw [List.nil_append, List.cons_append, takeExpSign, if_neg]
    rintro (h | h)
    · exact ne_of_isDigit hdigit (by decide) h
    · exact ne_of_isDigit hdigit (by decide) h
  · rfl
  · rfl

theorem takeExp_complete {x r : Bytes} (hx : IsExp x) (hr : Ends r) :
    takeExp (x ++ r) = some (x, r) := by
  cases hx with
  | none =>
    cases r with
    | nil => rfl
    | cons c r =>
      have hc := hr c rfl
      simp only [continuesNumber, Bool.or_eq_false_iff, beq_eq_false_iff_ne] at hc
      rw [List.nil_append, takeExp, if_neg (by rintro (h | h) <;> simp_all)]
  | some he hsign hne hd =>
    rw [List.cons_append, List.append_assoc, takeExp, if_pos he, takeExpSign_complete hsign hne hd,
      takeDigits_complete hne hd hr]
    rfl

theorem IsExp.head {x r : Bytes} (hx : IsExp x) (hr : Ends r) :
    ∀ c ∈ (x ++ r).head?, isDigit c = false ∧ c ≠ 0x2E := by
  intro c hc
  cases hx with
  | none =>
    have := hr c hc
    simp only [continuesNumber, Bool.or_eq_false_iff, beq_eq_false_iff_ne] at this
    exact ⟨this.1.1.1, this.1.1.2⟩
  | some he _ _ _ =>
    obtain rfl : _ = c := Option.some.inj hc
    rcases he with rfl | rfl <;> exact ⟨by decide, by decide⟩

theorem IsFrac.head {f r : Bytes} (hf : IsFrac f) (hr : ∀ c ∈ r.head?, isDigit c = false) :
    ∀ c ∈ (f ++ r).head?, isDigit c = false := by
  intro c hc
  cases hf with
  | none => exact hr c hc
  | some _ _ =>
    obtain rfl : _ = c := Option.some.inj hc
    decide

theorem IsInt.head {i : Bytes} (hi : IsInt i) : ∃ d ds, i = d :: ds ∧ isDigit d = true := by
  cases hi with
  | zero => exact ⟨_, _, rfl, by decide⟩
  | digits hd _ _ => exact ⟨_, _, rfl, hd⟩

theorem takeSign_complete {m i r : Bytes} (hm : m ∈ ([[], [0x2D]] : List Bytes)) (hi : IsInt i) :
    takeSign (m ++ (i ++ r)) = (m, i ++ r) := by
  obtain ⟨d, ds, rfl, hd⟩ := hi.head
  simp only [List.mem_cons, List.not_mem_nil, or_false] at hm
  rcases hm with rfl | rfl
  · rw [List.nil_append, List.cons_append, takeSign, if_neg (ne_of_isDigit hd (by decide))]
  · rfl

theorem takeNumber_complete {n r : Bytes} (hn : IsNumber n) (hr : Ends r) :
    takeNumber (n ++ r) = some (n, r) := by
  obtain ⟨hm, hi, hf, hx⟩ := hn
  have hhead := hx.head hr
  have hfrac := hf.head fun c hc => (hhead c hc).1
  rw [takeNumber]
  simp only [List.append_assoc, takeSign_complete hm hi, takeInt_complete hi hfrac,
    Option.bind_some,
    takeFrac_complete hf (fun c hc => (hhead c hc).1) (fun c hc => (hhead c hc).2),
    takeExp_complete hx hr, Option.map_some]

/-! ### The reader and the grammar -/

/-- What a successful read of each part says about the bytes. -/
structure Sound (fuel : ℕ) : Prop where
  value {s r : Bytes} {v : Tree} : readValue fuel s = some (v, r) →
    ∃ w t, Space w ∧ Spells Delimited (.value v) t ∧ s = w ++ (t ++ r)
  items {s r : Bytes} {vs : List Tree} : readItems fuel s = some (vs, r) →
    ∃ t, Spells Delimited (.items vs) t ∧ s = t ++ endArray :: r
  members {s r : Bytes} {ms : List (Bytes × Tree)} : readMembers fuel s = some (ms, r) →
    ∃ t, Spells Delimited (.members ms) t ∧ s = t ++ endObject :: r

theorem readValue_sound (ih : Sound fuel) (h : readValue (fuel + 1) s = some (v, r)) :
    ∃ w t, Space w ∧ Spells Delimited (.value v) t ∧ s = w ++ (t ++ r) := by
  obtain ⟨w, hw, hs⟩ := skipSpace_spec s
  suffices ∃ t, Spells Delimited (.value v) t ∧ skipSpace s = t ++ r by
    obtain ⟨t, ht, heq⟩ := this
    exact ⟨w, t, hw, ht, heq ▸ hs⟩
  rw [readValue] at h
  cases hskip : skipSpace s with
  | nil => rw [hskip] at h; cases h
  | cons c rest =>
    rw [hskip] at h
    simp only at h
    by_cases hn : c = 0x6E
    · rw [if_pos hn] at h
      obtain ⟨r', hr, he⟩ := Option.map_eq_some_iff.mp h
      cases he
      exact ⟨_, .null, expectText_eq_some.mp hr⟩
    rw [if_neg hn] at h
    by_cases ht : c = 0x74
    · rw [if_pos ht] at h
      obtain ⟨r', hr, he⟩ := Option.map_eq_some_iff.mp h
      cases he
      exact ⟨_, .bool true, expectText_eq_some.mp hr⟩
    rw [if_neg ht] at h
    by_cases hf : c = 0x66
    · rw [if_pos hf] at h
      obtain ⟨r', hr, he⟩ := Option.map_eq_some_iff.mp h
      cases he
      exact ⟨_, .bool false, expectText_eq_some.mp hr⟩
    rw [if_neg hf] at h
    by_cases hq : c = quotationMark
    · rw [if_pos hq] at h
      obtain ⟨⟨b, r'⟩, hr, he⟩ := Option.map_eq_some_iff.mp h
      cases he
      obtain ⟨hb, rfl⟩ := scanBody_sound hr
      exact ⟨_, .string hb, by simp [quoted, hq]⟩
    rw [if_neg hq] at h
    by_cases ho : c = beginObject
    · rw [if_pos ho] at h
      cases hend : expect endObject (skipSpace rest) with
      | some r' =>
        rw [hend] at h
        cases h
        obtain ⟨w', hw', rfl⟩ := expect_skipSpace_eq_some hend
        exact ⟨_, .noMembers hw', by simp [ho]⟩
      | none =>
        rw [hend] at h
        obtain ⟨⟨ms, r'⟩, hr, he⟩ := Option.map_eq_some_iff.mp h
        cases he
        obtain ⟨t, hms, rfl⟩ := ih.members hr
        exact ⟨_, .object hms, by simp [ho]⟩
    rw [if_neg ho] at h
    by_cases ha : c = beginArray
    · rw [if_pos ha] at h
      cases hend : expect endArray (skipSpace rest) with
      | some r' =>
        rw [hend] at h
        cases h
        obtain ⟨w', hw', rfl⟩ := expect_skipSpace_eq_some hend
        exact ⟨_, .noItems hw', by simp [ha]⟩
      | none =>
        rw [hend] at h
        obtain ⟨⟨vs, r'⟩, hr, he⟩ := Option.map_eq_some_iff.mp h
        cases he
        obtain ⟨t, hvs, rfl⟩ := ih.items hr
        exact ⟨_, .array hvs, by simp [ha]⟩
    rw [if_neg ha] at h
    obtain ⟨⟨n, r'⟩, hr, he⟩ := Option.map_eq_some_iff.mp h
    cases he
    obtain ⟨hn, heq⟩ := takeNumber_sound hr
    exact ⟨_, .number hn, heq⟩

theorem readItems_sound (ih : Sound fuel) {vs : List Tree}
    (h : readItems (fuel + 1) s = some (vs, r)) :
    ∃ t, Spells Delimited (.items vs) t ∧ s = t ++ endArray :: r := by
  rw [readItems] at h
  obtain ⟨⟨v, r₁⟩, hv, hnext⟩ := Option.bind_eq_some_iff.mp h
  obtain ⟨w, t, hw, ht, rfl⟩ := ih.value hv
  cases hend : expect endArray (skipSpace r₁) with
  | some r' =>
    simp only [hend, Option.some.injEq, Prod.mk.injEq] at hnext
    obtain ⟨rfl, rfl⟩ := hnext
    obtain ⟨w', hw', rfl⟩ := expect_skipSpace_eq_some hend
    exact ⟨_, .item hw ht hw', by simp⟩
  | none =>
    simp only [hend] at hnext
    obtain ⟨r₂, hsep, hrest⟩ := Option.bind_eq_some_iff.mp hnext
    obtain ⟨⟨vs', r'⟩, hvs, he⟩ := Option.map_eq_some_iff.mp hrest
    cases he
    obtain ⟨w', hw', rfl⟩ := expect_skipSpace_eq_some hsep
    obtain ⟨t', ht', rfl⟩ := ih.items hvs
    exact ⟨_, .items hw ht hw' ht', by simp⟩

theorem readMembers_sound (ih : Sound fuel) {ms : List (Bytes × Tree)}
    (h : readMembers (fuel + 1) s = some (ms, r)) :
    ∃ t, Spells Delimited (.members ms) t ∧ s = t ++ endObject :: r := by
  rw [readMembers] at h
  obtain ⟨r₁, hq, h⟩ := Option.bind_eq_some_iff.mp h
  obtain ⟨⟨k, r₂⟩, hk, h⟩ := Option.bind_eq_some_iff.mp h
  obtain ⟨r₃, hn, h⟩ := Option.bind_eq_some_iff.mp h
  obtain ⟨⟨v, r₄⟩, hv, hnext⟩ := Option.bind_eq_some_iff.mp h
  obtain ⟨w, hw, rfl⟩ := expect_skipSpace_eq_some hq
  obtain ⟨hkey, rfl⟩ := scanBody_sound hk
  obtain ⟨w₁, hw₁, rfl⟩ := expect_skipSpace_eq_some hn
  obtain ⟨w₂, t, hw₂, ht, rfl⟩ := ih.value hv
  cases hend : expect endObject (skipSpace r₄) with
  | some r' =>
    simp only [hend, Option.some.injEq, Prod.mk.injEq] at hnext
    obtain ⟨rfl, rfl⟩ := hnext
    obtain ⟨w', hw', rfl⟩ := expect_skipSpace_eq_some hend
    exact ⟨_, .member hw hkey hw₁ hw₂ ht hw', by simp [quoted]⟩
  | none =>
    simp only [hend] at hnext
    obtain ⟨r₅, hsep, hrest⟩ := Option.bind_eq_some_iff.mp hnext
    obtain ⟨⟨ms', r'⟩, hms, he⟩ := Option.map_eq_some_iff.mp hrest
    cases he
    obtain ⟨w', hw', rfl⟩ := expect_skipSpace_eq_some hsep
    obtain ⟨t', ht', rfl⟩ := ih.members hms
    exact ⟨_, .members hw hkey hw₁ hw₂ ht hw' ht', by simp [quoted]⟩

theorem sound (fuel : ℕ) : Sound fuel := by
  induction fuel with
  | zero => exact ⟨(by cases ·), (by cases ·), (by cases ·)⟩
  | succ fuel ih => exact ⟨readValue_sound ih, readItems_sound ih, readMembers_sound ih⟩

theorem readValue_append (hw : Space w) (fuel : ℕ) (s : Bytes) :
    readValue fuel (w ++ s) = readValue fuel s := by
  cases fuel with
  | zero => rfl
  | succ fuel => rw [readValue, readValue, skipSpace_append hw]

theorem Ends.cons {c : UInt8} (hc : continuesNumber c = false) (r : Bytes) : Ends (c :: r) := by
  intro d hd
  obtain rfl : c = d := Option.some.inj hd
  exact hc

theorem continuesNumber_of_isSpace (h : isSpace c = true) : continuesNumber c = false := by
  simp only [isSpace, Bool.or_eq_true, beq_iff_eq] at h
  rcases h with ((rfl | rfl) | rfl) | rfl <;> decide

theorem Ends.append {w r : Bytes} (hw : Space w) (hr : Ends r) : Ends (w ++ r) := by
  cases w with
  | nil => exact hr
  | cons c w => exact Ends.cons (continuesNumber_of_isSpace (hw c (by simp))) _

/-- The first byte of a value is neither a space nor the end of a composite. -/
theorem Spells.head (h : Spells S (.value v) t) :
    ∃ c t', t = c :: t' ∧ isSpace c = false ∧ c ≠ endArray ∧ c ≠ endObject := by
  cases h with
  | null => exact ⟨_, _, rfl, by decide⟩
  | bool b => cases b <;> exact ⟨_, _, rfl, by decide⟩
  | number hn =>
    obtain ⟨hm, hi, -, -⟩ := hn
    obtain ⟨d, ds, rfl, hd⟩ := hi.head
    simp only [List.mem_cons, List.not_mem_nil, or_false] at hm
    rcases hm with rfl | rfl
    · refine ⟨_, _, rfl, ?_, ne_of_isDigit hd (by decide), ne_of_isDigit hd (by decide)⟩
      simp only [isSpace, Bool.or_eq_false_iff, beq_eq_false_iff_ne]
      exact ⟨⟨⟨ne_of_isDigit hd (by decide), ne_of_isDigit hd (by decide)⟩,
        ne_of_isDigit hd (by decide)⟩,
        ne_of_isDigit hd (by decide)⟩
    · exact ⟨_, _, rfl, by decide⟩
  | string _ => exact ⟨_, _, rfl, by decide⟩
  | noItems _ => exact ⟨_, _, rfl, by decide⟩
  | array _ => exact ⟨_, _, rfl, by decide⟩
  | noMembers _ => exact ⟨_, _, rfl, by decide⟩
  | object _ => exact ⟨_, _, rfl, by decide⟩

/-- The reader returns the part its text spells, whatever follows. -/
def Reads : Part → Bytes → Prop
  | .value v, t => ∀ fuel r, 2 * t.length ≤ fuel → Ends r → readValue fuel (t ++ r) = some (v, r)
  | .items vs, t =>
    ∀ fuel r, 2 * t.length + 1 ≤ fuel → readItems fuel (t ++ endArray :: r) = some (vs, r)
  | .members ms, t =>
    ∀ fuel r, 2 * t.length + 1 ≤ fuel → readMembers fuel (t ++ endObject :: r) = some (ms, r)

theorem expect_ne {c d : UInt8} (h : d ≠ c) (r : Bytes) : expect c (d :: r) = none := by
  rw [expect, if_neg h]

theorem spells_items_head {vs : List Tree} (h : Spells S (.items vs) t) (r : Bytes) :
    expect endArray (skipSpace (t ++ r)) = none := by
  have key : ∀ {w t' : Bytes} {v : Tree} (s : Bytes), Space w → Spells S (.value v) t' →
      expect endArray (skipSpace (w ++ (t' ++ s))) = none := by
    intro w t' v s hw ht'
    obtain ⟨c, t'', rfl, hc, hne, -⟩ := ht'.head
    rw [skipSpace_append hw, List.cons_append, skipSpace_cons hc, expect_ne hne]
  cases h with
  | item hw ht _ => simpa only [List.append_assoc] using key _ hw ht
  | items hw ht _ _ => simpa only [List.append_assoc] using key _ hw ht

theorem spells_members_head {ms : List (Bytes × Tree)} (h : Spells S (.members ms) t) (r : Bytes) :
    expect endObject (skipSpace (t ++ r)) = none := by
  have key : ∀ {w : Bytes} (k s : Bytes), Space w →
      expect endObject (skipSpace (w ++ (quoted k ++ s))) = none := by
    intro w k s hw
    rw [skipSpace_append hw, quoted, List.cons_append, skipSpace_cons (by decide),
      expect_ne (by decide)]
  cases h with
  | member hw _ _ _ _ _ => simpa only [List.append_assoc] using key _ _ hw
  | members hw _ _ _ _ _ _ => simpa only [List.append_assoc] using key _ _ hw

theorem readValue_cons (hc : isSpace c = false) (fuel : ℕ) (s : Bytes) :
    readValue (fuel + 1) (c :: s) =
      if c = 0x6E then (expectText nullText (c :: s)).map fun r => (.null, r)
      else if c = 0x74 then (expectText (boolText true) (c :: s)).map fun r => (.bool true, r)
      else if c = 0x66 then (expectText (boolText false) (c :: s)).map fun r => (.bool false, r)
      else if c = quotationMark then (scanBody s).map fun r => (.string r.1, r.2)
      else if c = beginObject then
        match expect endObject (skipSpace s) with
        | some r => some (.object [], r)
        | none => (readMembers fuel s).map fun r => (.object r.1, r.2)
      else if c = beginArray then
        match expect endArray (skipSpace s) with
        | some r => some (.array [], r)
        | none => (readItems fuel s).map fun r => (.array r.1, r.2)
      else (takeNumber (c :: s)).map fun r => (.number r.1, r.2) := by
  rw [readValue, skipSpace_cons hc]

theorem readValue_number {n r : Bytes} (hn : IsNumber n) (hr : Ends r) :
    readValue (fuel + 1) (n ++ r) = some (.number n, r) := by
  have hread := takeNumber_complete hn hr
  obtain ⟨c, n', rfl, hc, -, -⟩ := (Spells.number (S := Delimited) hn).head
  have hfirst : c = 0x2D ∨ isDigit c = true := by
    generalize hn' : c :: n' = n at hn
    obtain ⟨hm, hi, -, -⟩ := hn
    obtain ⟨d, ds, rfl, hd⟩ := hi.head
    simp only [List.mem_cons, List.not_mem_nil, or_false] at hm
    rcases hm with rfl | rfl
    · exact .inr ((List.cons.inj hn').1 ▸ hd)
    · exact .inl (List.cons.inj hn').1
  have hne : ∀ d : UInt8, d ≠ 0x2D → isDigit d = false → c ≠ d := by
    rintro d h₁ h₂ rfl
    rcases hfirst with h | h
    · exact h₁ h
    · rw [h₂] at h; cases h
  rw [List.cons_append, readValue_cons hc, if_neg (hne _ (by decide) (by decide)),
    if_neg (hne _ (by decide) (by decide)),
    if_neg (hne _ (by decide) (by decide)), if_neg (hne _ (by decide) (by decide)),
    if_neg (hne _ (by decide) (by decide)), if_neg (hne _ (by decide) (by decide)),
    ← List.cons_append, hread]
  rfl

theorem readValue_object {s : Bytes} (h : expect endObject (skipSpace s) = none) :
    readValue (fuel + 1) (beginObject :: s) = (readMembers fuel s).map fun r =>
      (.object r.1, r.2) := by
  rw [readValue_cons (by decide)]
  simp only [h]
  rfl

theorem readValue_array {s : Bytes} (h : expect endArray (skipSpace s) = none) :
    readValue (fuel + 1) (beginArray :: s) = (readItems fuel s).map fun r => (.array r.1, r.2) := by
  rw [readValue_cons (by decide)]
  simp only [h]
  rfl

theorem readValue_empty (hw : Space w) (r : Bytes) :
    readValue (fuel + 1) (beginObject :: (w ++ endObject :: r)) = some (.object [], r) ∧
      readValue (fuel + 1) (beginArray :: (w ++ endArray :: r)) = some (.array [], r) := by
  rw [readValue_cons (by decide), readValue_cons (by decide), expect_skipSpace (by decide) hw,
    expect_skipSpace (by decide) hw]
  exact ⟨rfl, rfl⟩

/-- Reading is complete, by induction on the derivation. -/
theorem Spells.reads (hS : ∀ b, S b → Delimited b) {p : Part} (h : Spells S p t) :
    Reads p t := by
  induction h with
  | null =>
    intro fuel r hfuel _
    obtain ⟨fuel, rfl⟩ := Nat.exists_eq_succ_of_ne_zero (show fuel ≠ 0 by rintro rfl; cases hfuel)
    rfl
  | bool b =>
    intro fuel r hfuel _
    obtain ⟨fuel, rfl⟩ :=
      Nat.exists_eq_succ_of_ne_zero (show fuel ≠ 0 by rintro rfl; cases b <;> cases hfuel)
    cases b <;> rfl
  | @number t hn =>
    intro fuel r hfuel hr
    obtain ⟨c, t', rfl, -⟩ := (Spells.number (S := S) hn).head
    obtain ⟨fuel, rfl⟩ := Nat.exists_eq_succ_of_ne_zero (show fuel ≠ 0 by rintro rfl; simp at hfuel)
    exact readValue_number hn hr
  | @string b hb =>
    intro fuel r hfuel _
    obtain ⟨fuel, rfl⟩ :=
      Nat.exists_eq_succ_of_ne_zero (show fuel ≠ 0 by rintro rfl; simp [quoted] at hfuel)
    have hscan := scanBody_complete (hS _ hb) r
    rw [quoted, List.cons_append, List.append_assoc, List.singleton_append,
      readValue_cons (by decide), hscan]
    rfl
  | @noItems w hw =>
    intro fuel r hfuel _
    obtain ⟨fuel, rfl⟩ := Nat.exists_eq_succ_of_ne_zero (show fuel ≠ 0 by rintro rfl; simp at hfuel)
    rw [List.cons_append, List.append_assoc, List.singleton_append]
    exact (readValue_empty hw r).2
  | @array vs t ht ih =>
    intro fuel r hfuel _
    obtain ⟨fuel, rfl⟩ := Nat.exists_eq_succ_of_ne_zero (show fuel ≠ 0 by rintro rfl; simp at hfuel)
    simp only [List.length_cons, List.length_append, List.length_nil] at hfuel
    rw [List.cons_append, List.append_assoc, List.singleton_append,
      readValue_array (spells_items_head ht _),
      ih fuel r (by omega)]
    rfl
  | @noMembers w hw =>
    intro fuel r hfuel _
    obtain ⟨fuel, rfl⟩ := Nat.exists_eq_succ_of_ne_zero (show fuel ≠ 0 by rintro rfl; simp at hfuel)
    rw [List.cons_append, List.append_assoc, List.singleton_append]
    exact (readValue_empty hw r).1
  | @object ms t ht ih =>
    intro fuel r hfuel _
    obtain ⟨fuel, rfl⟩ := Nat.exists_eq_succ_of_ne_zero (show fuel ≠ 0 by rintro rfl; simp at hfuel)
    simp only [List.length_cons, List.length_append, List.length_nil] at hfuel
    rw [List.cons_append, List.append_assoc, List.singleton_append,
      readValue_object (spells_members_head ht _),
      ih fuel r (by omega)]
    rfl
  | @item v w t w' hw ht hw' ih =>
    intro fuel r hfuel
    obtain ⟨fuel, rfl⟩ := Nat.exists_eq_succ_of_ne_zero (show fuel ≠ 0 by omega)
    simp only [List.length_append] at hfuel
    have hv := ih fuel (w' ++ endArray :: r) (by omega) (Ends.append hw' (Ends.cons (by decide) r))
    rw [List.append_assoc, List.append_assoc, readItems, readValue_append hw, hv]
    simp only [Option.bind_some, expect_skipSpace (show isSpace endArray = false by decide) hw']
  | @items v vs w t w' rest hw ht hw' hrest ih ihrest =>
    intro fuel r hfuel
    obtain ⟨fuel, rfl⟩ := Nat.exists_eq_succ_of_ne_zero (show fuel ≠ 0 by omega)
    simp only [List.length_append, List.length_cons] at hfuel
    have hv := ih fuel (w' ++ valueSeparator :: (rest ++ endArray :: r)) (by omega)
      (Ends.append hw' (Ends.cons (by decide) _))
    have hskip : skipSpace (w' ++ valueSeparator :: (rest ++ endArray :: r)) =
        valueSeparator :: (rest ++ endArray :: r) := by
      rw [skipSpace_append hw', skipSpace_cons (by decide)]
    simp only [List.append_assoc, List.cons_append]
    rw [readItems, readValue_append hw, hv]
    simp only [Option.bind_some, hskip, expect_ne (show valueSeparator ≠ endArray by decide),
      expect_self,
      ihrest fuel r (by omega), Option.map_some]
  | @member k v w w₁ w₂ t w' hw hk hw₁ hw₂ ht hw' ih =>
    intro fuel r hfuel
    obtain ⟨fuel, rfl⟩ := Nat.exists_eq_succ_of_ne_zero (show fuel ≠ 0 by omega)
    simp only [List.length_append, List.length_cons] at hfuel
    have hv := ih fuel (w' ++ endObject :: r) (by omega) (Ends.append hw' (Ends.cons (by decide) r))
    simp only [List.append_assoc, List.cons_append, List.nil_append, quoted]
    rw [readMembers, expect_skipSpace (by decide) hw]
    simp only [Option.bind_some, scanBody_complete (hS _ hk),
      expect_skipSpace (show isSpace nameSeparator = false by decide) hw₁,
      readValue_append hw₂, hv, expect_skipSpace (show isSpace endObject = false by decide) hw']
  | @members k v ms w w₁ w₂ t w' rest hw hk hw₁ hw₂ ht hw' hrest ih ihrest =>
    intro fuel r hfuel
    obtain ⟨fuel, rfl⟩ := Nat.exists_eq_succ_of_ne_zero (show fuel ≠ 0 by omega)
    simp only [List.length_append, List.length_cons] at hfuel
    have hv := ih fuel (w' ++ valueSeparator :: (rest ++ endObject :: r)) (by omega)
      (Ends.append hw' (Ends.cons (by decide) _))
    have hskip : skipSpace (w' ++ valueSeparator :: (rest ++ endObject :: r)) =
        valueSeparator :: (rest ++ endObject :: r) := by
      rw [skipSpace_append hw', skipSpace_cons (by decide)]
    simp only [List.append_assoc, List.cons_append, List.nil_append, quoted]
    rw [readMembers, expect_skipSpace (by decide) hw]
    simp only [Option.bind_some, scanBody_complete (hS _ hk),
      expect_skipSpace (show isSpace nameSeparator = false by decide) hw₁,
      readValue_append hw₂, hv, hskip, expect_ne (show valueSeparator ≠ endObject by decide),
      expect_self,
      ihrest fuel r (by omega), Option.map_some]

theorem skipSpace_eq_nil {s : Bytes} : skipSpace s = [] ↔ Space s := by
  rw [skipSpace, List.dropWhile_eq_nil_iff]
  rfl

/-- The reader decides the grammar. -/
theorem read_eq_some (hS : ∀ b, S b ↔ Delimited b) {text : Bytes} :
    read text = some v ↔ Text S text v := by
  obtain rfl : S = Delimited := funext fun b => propext (hS b)
  constructor
  · intro h
    obtain ⟨⟨v', r⟩, hv, h⟩ := Option.bind_eq_some_iff.mp h
    obtain ⟨hr, he⟩ := Option.ite_none_right_eq_some.mp h
    cases he
    obtain ⟨w, t, hw, ht, rfl⟩ := (sound _).value hv
    exact ⟨w, t, r, hw, ht, skipSpace_eq_nil.mp hr, rfl⟩
  · rintro ⟨w, t, w', hw, ht, hw', rfl⟩
    have hread :=
      ht.reads (fun _ h => h) (2 * (w ++ (t ++ w')).length) w'
      (by simp only [List.length_append]; omega)
      (by simpa using Ends.append hw' (r := []) (fun c hc => by cases hc))
    rw [read, readValue_append hw, hread, Option.bind_some, if_pos (skipSpace_eq_nil.mpr hw')]

theorem skipSpace_skipSpace (s : Bytes) : skipSpace (skipSpace s) = skipSpace s := by
  induction s with
  | nil => rfl
  | cons c s ih =>
    by_cases hc : isSpace c = true
    · have hskip : skipSpace (c :: s) = skipSpace s := List.dropWhile_cons_of_pos hc
      rw [hskip, ih]
    · rw [skipSpace_cons (Bool.eq_false_iff.mpr hc), skipSpace_cons (Bool.eq_false_iff.mpr hc)]

theorem readValue_skipSpace (fuel : ℕ) (s : Bytes) :
    readValue fuel (skipSpace s) = readValue fuel s := by
  cases fuel with
  | zero => rfl
  | succ fuel => rw [readValue, readValue, skipSpace_skipSpace]

theorem readItems_skipSpace (fuel : ℕ) (s : Bytes) :
    readItems fuel (skipSpace s) = readItems fuel s := by
  cases fuel with
  | zero => rfl
  | succ fuel => rw [readItems, readItems, readValue_skipSpace]

theorem readMembers_skipSpace (fuel : ℕ) (s : Bytes) :
    readMembers fuel (skipSpace s) = readMembers fuel s := by
  cases fuel with
  | zero => rfl
  | succ fuel => rw [readMembers, readMembers, skipSpace_skipSpace]

/-! ### The ends of a value -/

def Visible (c : UInt8) : Prop := 0x21 ≤ c ∧ c < 0x80

instance (c : UInt8) : Decidable (Visible c) := inferInstanceAs (Decidable (0x21 ≤ c ∧ c < 0x80))

theorem visible_of_isDigit (h : isDigit c = true) : Visible c := by
  simp only [isDigit, Bool.and_eq_true, decide_eq_true_eq] at h
  exact ⟨UInt8.le_trans (by decide) h.1, UInt8.lt_of_le_of_lt h.2 (by decide)⟩

def VisibleEnd (t : Bytes) : Prop := ∃ r c, t = r ++ [c] ∧ Visible c

theorem VisibleEnd.append (s : Bytes) (h : VisibleEnd t) : VisibleEnd (s ++ t) := by
  obtain ⟨r, c, rfl, hc⟩ := h
  exact ⟨s ++ r, c, (List.append_assoc _ _ _).symm, hc⟩

theorem Digits.visibleEnd {ds : Bytes} (hne : ds ≠ []) (hd : Digits ds) : VisibleEnd ds :=
  ⟨ds.dropLast, ds.getLast hne, (List.dropLast_append_getLast hne).symm,
    visible_of_isDigit (hd _ (List.getLast_mem hne))⟩

theorem IsNumber.ends {n : Bytes} (h : IsNumber n) :
    (∃ c r, n = c :: r ∧ Visible c) ∧ VisibleEnd n := by
  obtain ⟨hm, hi, hf, hx⟩ := h
  constructor
  · obtain ⟨d, ds, rfl, hd⟩ := hi.head
    simp only [List.mem_cons, List.not_mem_nil, or_false] at hm
    rcases hm with rfl | rfl
    · exact ⟨_, _, rfl, visible_of_isDigit hd⟩
    · exact ⟨_, _, rfl, by decide⟩
  · refine VisibleEnd.append _ ?_
    cases hx with
    | @some e sign ds _ _ hne hd =>
      exact VisibleEnd.append _
        (VisibleEnd.append _ (VisibleEnd.append (e :: sign) (hd.visibleEnd hne)))
    | none =>
      cases hf with
      | @some ds hne hd =>
        rw [List.append_nil]
        exact VisibleEnd.append _ (VisibleEnd.append [0x2E] (hd.visibleEnd hne))
      | none =>
        rw [List.append_nil, List.append_nil]
        cases hi with
        | zero => exact ⟨[], _, rfl, by decide⟩
        | digits hd _ hds =>
          exact Digits.visibleEnd (List.cons_ne_nil _ _) (List.forall_mem_cons.mpr ⟨hd, hds⟩)

/-- A value begins and ends with a visible character. -/
theorem Spells.ends {S : Bytes → Prop} {v : Tree} {t : Bytes} (h : Spells S (.value v) t) :
    (∃ c r, t = c :: r ∧ Visible c) ∧ VisibleEnd t := by
  cases h with
  | null => exact ⟨⟨_, _, rfl, by decide⟩, [0x6E, 0x75, 0x6C], _, rfl, by decide⟩
  | bool b =>
    cases b with
    | true => exact ⟨⟨_, _, rfl, by decide⟩, [0x74, 0x72, 0x75], _, rfl, by decide⟩
    | false => exact ⟨⟨_, _, rfl, by decide⟩, [0x66, 0x61, 0x6C, 0x73], _, rfl, by decide⟩
  | number hn => exact hn.ends
  | @string b _ => exact ⟨⟨_, _, rfl, by decide⟩, quotationMark :: b, _, rfl, by decide⟩
  | @noItems w _ => exact ⟨⟨_, _, rfl, by decide⟩, beginArray :: w, _, rfl, by decide⟩
  | @array _ t _ => exact ⟨⟨_, _, rfl, by decide⟩, beginArray :: t, _, rfl, by decide⟩
  | @noMembers w _ => exact ⟨⟨_, _, rfl, by decide⟩, beginObject :: w, _, rfl, by decide⟩
  | @object _ t _ => exact ⟨⟨_, _, rfl, by decide⟩, beginObject :: t, _, rfl, by decide⟩

end Foundation.Json
