import Mathlib.Data.List.Sort
import Foundation.Lib.Json

/-! What a JSON text denotes: the strings of RFC 8259, integers, and objects in which the last
member of a name counts. Strings are given by their UTF-8 encoding. -/

namespace Foundation.Json

def hexDigit? (b : UInt8) : Option ℕ :=
  if isDigit b then some (b.toNat - 0x30)
  else if 0x61 ≤ b ∧ b ≤ 0x66 then some (b.toNat - 0x61 + 10)
  else if 0x41 ≤ b ∧ b ≤ 0x46 then some (b.toNat - 0x41 + 10)
  else none

def hex? (ds : Bytes) : Option ℕ := ds.foldlM (fun n d => (hexDigit? d).map fun h => n * 16 + h) 0

def escapes : List (UInt8 × ℕ) :=
  [(0x22, 0x22), (0x5C, 0x5C), (0x2F, 0x2F), (0x62, 0x08), (0x66, 0x0C), (0x6E, 0x0A), (0x72, 0x0D),
    (0x74, 0x09)]

/-- One `char` of the grammar of strings, with the code point it stands for. -/
inductive IsChar : Bytes → ℕ → Prop
  | unescaped {c : Char} : 0x20 ≤ c.toNat → c ≠ '"' → c ≠ '\\' → IsChar (Utf8.encodeChar c) c.toNat
  | escaped {b : UInt8} {n : ℕ} : escapes.lookup b = some n → IsChar [escape, b] n
  | unicode {ds : Bytes} {n : ℕ} : ds.length = 4 → hex? ds = some n →
    IsChar (escape :: 0x75 :: ds) n

inductive IsString : Bytes → List ℕ → Prop
  | nil : IsString [] []
  | cons {t b : Bytes} {n : ℕ} {ns : List ℕ} : IsChar t n → IsString b ns →
    IsString (t ++ b) (n :: ns)

/-- The string bodies of RFC 8259. -/
def Rfc (b : Bytes) : Prop := ∃ ns, IsString b ns

def readChar : Bytes → Option (ℕ × Bytes)
  | [] => none
  | c :: rest =>
    if c = escape then
      match rest with
      | [] => none
      | e :: rest =>
        if e = 0x75 then
          if rest.length < 4 then none else (hex? (rest.take 4)).map fun n => (n, rest.drop 4)
        else (escapes.lookup e).map fun n => (n, rest)
    else
      (Utf8.first? (c :: rest)).bind fun ch =>
        if 0x20 ≤ ch.toNat ∧ ch ≠ '"' ∧ ch ≠ '\\' then
          some (ch.toNat, (c :: rest).drop (Utf8.encodeChar ch).length)
        else none

def readString : ℕ → Bytes → Option (List ℕ)
  | _, [] => some []
  | 0, _ :: _ => none
  | fuel + 1, c :: s => (readChar (c :: s)).bind fun r => (readString fuel r.2).map (r.1 :: ·)

/-- The scalar values of a list of code points, surrogate pairs combined. -/
def scalars : List ℕ → Option (List Char)
  | [] => some []
  | [n] => if n.isValidChar then some [Char.ofNat n] else none
  | n :: m :: ns =>
    if n.isValidChar then (scalars (m :: ns)).map (Char.ofNat n :: ·)
    else if 0xD800 ≤ n ∧ n < 0xDC00 ∧ 0xDC00 ≤ m ∧ m < 0xE000 then
      (scalars ns).map (Char.ofNat (0x10000 + (n - 0xD800) * 0x400 + (m - 0xDC00)) :: ·)
    else none

def stringValue (b : Bytes) : Option Bytes := ((readString b.length b).bind scalars).map Utf8.encode

/-- The integer a number without fraction and exponent stands for. -/
def natural? (ds : Bytes) : Option ℕ :=
  if ds ≠ [] ∧ ds.all isDigit then some (ds.foldl (fun n d => n * 10 + (d.toNat - 0x30)) 0)
  else none

def integer? : Bytes → Option ℤ
  | [] => none
  | c :: ds =>
    if c = 0x2D then (natural? ds).map fun n => -(n : ℤ)
    else (natural? (c :: ds)).map fun n => (n : ℤ)

inductive Data where
  | null
  | bool (b : Bool)
  | integer (i : ℤ)
  | string (s : Bytes)
  | array (items : List Data)
  | object (fields : List (Bytes × Data))

def keyLess (a b : Bytes) : Prop := a.map UInt8.toNat < b.map UInt8.toNat

instance (a b : Bytes) : Decidable (keyLess a b) :=
  inferInstanceAs (Decidable (a.map UInt8.toNat < b.map UInt8.toNat))

/-- Setting a field in a list kept by ascending key. -/
def put {α : Type} (k : Bytes) (v : α) : List (Bytes × α) → List (Bytes × α)
  | [] => [(k, v)]
  | e :: rest =>
    if keyLess k e.1 then (k, v) :: e :: rest else if k = e.1 then (k, v) :: rest
    else e :: put k v rest

def putAll {α : Type} (fields : List (Bytes × α)) : List (Bytes × α) :=
  fields.foldl (fun acc f => put f.1 f.2 acc) []

/-! ### Recursion over trees -/

structure Algebra (α : Type) where
  null : α
  bool : Bool → α
  number : Bytes → α
  string : Bytes → α
  array : List α → α
  object : List (Bytes × α) → α

section
variable {α : Type} (alg : Algebra α)

mutual

def Tree.fold : Tree → α
  | .null => alg.null
  | .bool b => alg.bool b
  | .number t => alg.number t
  | .string b => alg.string b
  | .array vs => alg.array (foldItems vs)
  | .object ms => alg.object (foldMembers ms)

def foldItems : List Tree → List α
  | [] => []
  | v :: vs => v.fold :: foldItems vs

def foldMembers : List (Bytes × Tree) → List (Bytes × α)
  | [] => []
  | (k, v) :: ms => (k, v.fold) :: foldMembers ms

end

theorem foldItems_eq (vs : List Tree) : foldItems alg vs = vs.map (Tree.fold alg) := by
  induction vs with
  | nil => rfl
  | cons v vs ih => rw [foldItems, ih, List.map_cons]

theorem foldMembers_eq (ms : List (Bytes × Tree)) :
    foldMembers alg ms = ms.map fun m => (m.1, m.2.fold alg) := by
  induction ms with
  | nil => rfl
  | cons m ms ih => rw [foldMembers, ih, List.map_cons]

theorem Tree.fold_array (vs : List Tree) :
    (Tree.array vs).fold alg = alg.array (vs.map (Tree.fold alg)) := by
  rw [Tree.fold, foldItems_eq]

theorem Tree.fold_object (ms : List (Bytes × Tree)) :
    (Tree.object ms).fold alg = alg.object (ms.map fun m => (m.1, m.2.fold alg)) := by
  rw [Tree.fold, foldMembers_eq]

end

/-- Induction over trees, with the hypothesis for every item and every member. -/
theorem Tree.induct {motive : Tree → Prop} (null : motive .null) (bool : ∀ b, motive (.bool b))
    (number : ∀ t, motive (.number t)) (string : ∀ b, motive (.string b))
    (array : ∀ vs, (∀ v ∈ vs, motive v) → motive (.array vs))
    (object : ∀ ms, (∀ m ∈ ms, motive m.2) → motive (.object ms)) (v : Tree) : motive v :=
  @Tree.rec motive (fun vs => ∀ v ∈ vs, motive v) (fun ms => ∀ m ∈ ms,
    motive m.2) (fun m => motive m.2)
    null bool number string array object
    (fun _ h => by cases h) (fun _ _ hv hvs => List.forall_mem_cons.mpr ⟨hv, hvs⟩)
    (fun _ h => by cases h) (fun _ _ hm hms => List.forall_mem_cons.mpr ⟨hm, hms⟩)
    (fun _ _ h => h) v

/-! ### Strings -/

theorem readChar_escape (e : UInt8) (rest : Bytes) : readChar (escape :: e :: rest) =
    if e = 0x75 then
      if rest.length < 4 then none else (hex? (rest.take 4)).map fun n => (n, rest.drop 4)
    else (escapes.lookup e).map fun n => (n, rest) := by
  rw [readChar, if_pos rfl]

theorem readChar_plain {c : UInt8} (hc : c ≠ escape) (rest : Bytes) : readChar (c :: rest) =
    (Utf8.first? (c :: rest)).bind fun ch =>
      if 0x20 ≤ ch.toNat ∧ ch ≠ '"' ∧ ch ≠ '\\' then
        some (ch.toNat, (c :: rest).drop (Utf8.encodeChar ch).length)
      else none := by
  rw [readChar.eq_def]
  exact if_neg hc

variable {d : UInt8} {n : ℕ} {b : Bytes} {ns : List ℕ}

theorem encodeChar_head {c : Char} (hc : c.toNat ≠ d.toNat) (hd : d < 0x80) (r : Bytes) :
    ∀ s, Utf8.encodeChar c ++ r ≠ d :: s := by
  intro s h
  by_cases hlt : c.toNat < 0x80
  · rw [Utf8.encodeChar_of_lt hlt, List.singleton_append] at h
    have := congrArg UInt8.toNat (List.cons.inj h).1
    rw [UInt8.toNat_ofNat', Nat.mod_eq_of_lt (by omega)] at this
    exact hc this
  · obtain ⟨b, bs, hbs⟩ := List.exists_cons_of_ne_nil (Utf8.encodeChar_ne_nil c)
    have hb :=
      Utf8.le_of_mem_encodeChar (Nat.not_lt.mp hlt) (hbs ▸ List.mem_cons_self : b ∈
      Utf8.encodeChar c)
    rw [hbs, List.cons_append] at h
    rw [(List.cons.inj h).1] at hb
    exact absurd hb (UInt8.not_le.mpr hd)

theorem readChar_complete {t : Bytes} (h : IsChar t n) (r : Bytes) :
    readChar (t ++ r) = some (n, r) := by
  cases h with
  | @unescaped c hc hq he =>
    have hne : c.toNat ≠ escape.toNat := fun h => he (Char.toNat_inj.mp h)
    obtain ⟨b, bs, hbs⟩ := List.exists_cons_of_ne_nil (Utf8.encodeChar_ne_nil c)
    have hb : b ≠ escape :=
      fun hb => encodeChar_head hne (by decide) r (bs ++ r) (by rw [hbs, hb]; rfl)
    have hfirst := Utf8.first?_append c r
    have hdrop : (Utf8.encodeChar c ++ r).drop (Utf8.encodeChar c).length = r := List.drop_left
    rw [hbs, List.cons_append] at hfirst hdrop ⊢
    rw [readChar_plain hb, hfirst, Option.bind_some, if_pos ⟨hc, hq, he⟩, hbs, hdrop]
  | @escaped b n hb =>
    have hne : b ≠ 0x75 := by
      rintro rfl
      rw [show escapes.lookup 0x75 = none by decide] at hb
      cases hb
    rw [List.cons_append, List.singleton_append, readChar_escape, if_neg hne, hb]
    rfl
  | @unicode ds n hlen hn =>
    have hlt : ¬ (ds ++ r).length < 4 := by rw [List.length_append]; omega
    rw [List.cons_append, List.cons_append, readChar_escape, if_pos rfl, if_neg hlt,
      List.take_left' hlen, List.drop_left' hlen, hn]
    rfl

theorem readChar_sound {s r : Bytes} (h : readChar s = some (n, r)) :
    ∃ t, IsChar t n ∧ s = t ++ r := by
  cases s with
  | nil => cases h
  | cons c rest =>
    by_cases hc : c = escape
    · cases rest with
      | nil => rw [readChar, if_pos hc] at h; cases h
      | cons e rest =>
        rw [hc, readChar_escape] at h
        split_ifs at h with he hlen
        · obtain ⟨n', hn, heq⟩ := Option.map_eq_some_iff.mp h
          cases heq
          refine ⟨_, .unicode (by rw [List.length_take]; omega) hn, ?_⟩
          rw [hc, he, List.cons_append, List.cons_append, List.take_append_drop]
        · obtain ⟨n', hn, heq⟩ := Option.map_eq_some_iff.mp h
          cases heq
          exact ⟨_, .escaped hn, by rw [hc]; rfl⟩
    · rw [readChar_plain hc] at h
      obtain ⟨ch, hfirst, hch⟩ := Option.bind_eq_some_iff.mp h
      obtain ⟨⟨hlo, hq, he⟩, heq⟩ := Option.ite_none_right_eq_some.mp hch
      cases heq
      obtain ⟨rest', hsplit⟩ := Utf8.first?_eq_some.mp hfirst
      refine ⟨_, .unescaped hlo hq he, ?_⟩
      rw [hsplit, List.drop_left]

theorem IsChar.ne_nil {t : Bytes} (h : IsChar t n) : t ≠ [] := by
  cases h with
  | unescaped _ _ _ => exact Utf8.encodeChar_ne_nil _
  | escaped _ => simp
  | unicode _ _ => simp

theorem readString_complete (h : IsString b ns) :
    ∀ fuel, b.length ≤ fuel → readString fuel b = some ns := by
  induction h with
  | nil => intro fuel _; rw [readString]
  | @cons t b n ns ht _ ih =>
    intro fuel hfuel
    have hread := readChar_complete ht b
    obtain ⟨c, t', rfl⟩ := List.exists_cons_of_ne_nil ht.ne_nil
    simp only [List.cons_append, List.length_cons, List.length_append] at hfuel
    obtain ⟨fuel, rfl⟩ := Nat.exists_eq_succ_of_ne_zero (show fuel ≠ 0 by omega)
    rw [List.cons_append] at hread ⊢
    rw [readString, hread, Option.bind_some, ih fuel (by omega)]
    rfl

theorem readString_sound {fuel : ℕ} (h : readString fuel b = some ns) : IsString b ns := by
  fun_induction readString fuel b generalizing ns with
  | case1 => cases h; exact .nil
  | case2 => cases h
  | case3 fuel c s ih =>
    obtain ⟨⟨n, r⟩, hr, h'⟩ := Option.bind_eq_some_iff.mp h
    obtain ⟨ns', hns, he⟩ := Option.map_eq_some_iff.mp h'
    cases he
    obtain ⟨t, ht, hs⟩ := readChar_sound hr
    exact hs ▸ .cons ht (ih _ hns)

theorem readString_eq_some : readString b.length b = some ns ↔ IsString b ns :=
  ⟨readString_sound, fun h => readString_complete h _ le_rfl⟩

theorem rfc_iff : Rfc b ↔ (readString b.length b).isSome = true := by
  rw [Option.isSome_iff_exists]
  exact exists_congr fun _ => readString_eq_some.symm

/-- No string begins with an escape outside the grammar. -/
theorem not_rfc_escape {e : UInt8} (hu : e ≠ 0x75) (h : escapes.lookup e = none) (rest : Bytes) :
    ¬ Rfc (escape :: e :: rest) := by
  rw [rfc_iff, List.length_cons, readString, readChar_escape, if_neg hu, h]
  exact Bool.false_ne_true

instance (b : Bytes) : Decidable (Rfc b) := decidable_of_iff' _ rfc_iff

theorem hexDigit?_plain (h : hexDigit? d = some n) :
    d ≠ quotationMark ∧ d ≠ escape ∧ 0x20 ≤ d := by
  refine ⟨?_, ?_, ?_⟩
  · rintro rfl
    rw [show hexDigit? quotationMark = none by decide] at h
    cases h
  · rintro rfl
    rw [show hexDigit? escape = none by decide] at h
    cases h
  · rw [hexDigit?] at h
    split_ifs at h with h₁ h₂ h₃
    · simp only [isDigit, Bool.and_eq_true, decide_eq_true_eq] at h₁
      exact UInt8.le_trans (by decide) h₁.1
    · exact UInt8.le_trans (by decide) h₂.1
    · exact UInt8.le_trans (by decide) h₃.1

theorem hexDigit?_of_mem {ds : Bytes} {m n : ℕ} (hd : d ∈ ds)
    (h : ds.foldlM (fun n d => (hexDigit? d).map fun h => n * 16 + h) m = some n) :
    (hexDigit? d).isSome = true := by
  induction ds generalizing m with
  | nil => cases hd
  | cons e ds ih =>
    rw [List.foldlM_cons] at h
    obtain ⟨m', hm', h⟩ := Option.bind_eq_some_iff.mp h
    rcases List.mem_cons.mp hd with rfl | hd
    · obtain ⟨x, hx, -⟩ := Option.map_eq_some_iff.mp hm'
      rw [hx]; rfl
    · exact ih hd h

theorem Delimited.append {t b : Bytes} (ht : ∀ c ∈ t, c ≠ quotationMark ∧ c ≠ escape ∧ 0x20 ≤ c)
    (hb : Delimited b) : Delimited (t ++ b) := by
  induction t with
  | nil => exact hb
  | cons c t ih =>
    obtain ⟨hq, he, hc⟩ := ht c (by simp)
    exact .plain hq he hc (ih fun d hd => ht d (by simp [hd]))

theorem plain_of_encodeChar {c : Char} (hc : 0x20 ≤ c.toNat)
    (hq : c ≠ '"') (he : c ≠ '\\') (hd : d ∈ Utf8.encodeChar c)  :
    d ≠ quotationMark ∧ d ≠ escape ∧ 0x20 ≤ d := by
  by_cases hlt : c.toNat < 0x80
  · rw [Utf8.encodeChar_of_lt hlt, List.mem_singleton] at hd
    have hnat : d.toNat = c.toNat := by rw [hd, UInt8.toNat_ofNat', Nat.mod_eq_of_lt (by omega)]
    refine ⟨?_, ?_, ?_⟩
    · rintro rfl; exact hq (Char.toNat_inj.mp hnat.symm)
    · rintro rfl; exact he (Char.toNat_inj.mp hnat.symm)
    · rw [UInt8.le_iff_toNat_le, hnat]; exact hc
  · have hle := Utf8.le_of_mem_encodeChar (Nat.not_lt.mp hlt) hd
    refine ⟨?_, ?_, UInt8.le_trans (by decide) hle⟩
    · rintro rfl; exact absurd hle (by decide)
    · rintro rfl; exact absurd hle (by decide)

theorem IsChar.delimited {t b : Bytes} (ht : IsChar t n) (hb : Delimited b) :
    Delimited (t ++ b) := by
  cases ht with
  | unescaped hc hq he => exact hb.append fun d hd => plain_of_encodeChar hc hq he hd
  | escaped _ => exact .escaped _ hb
  | @unicode ds n _ hn =>
    refine .escaped _ (hb.append fun d hd => ?_)
    obtain ⟨x, hx⟩ := Option.isSome_iff_exists.mp (hexDigit?_of_mem hd hn)
    exact hexDigit?_plain hx

theorem Rfc.delimited (h : Rfc b) : Delimited b := by
  obtain ⟨ns, h⟩ := h
  induction h with
  | nil => exact .nil
  | cons ht _ ih => exact ht.delimited ih

/-! ### Strings and numbers of a tree -/

/-- The string bodies of a tree, names included. -/
def Tree.bodies (v : Tree) : List Bytes :=
  v.fold ⟨[], fun _ => [], fun _ => [], fun b => [b], List.flatten,
    fun ms => ms.flatMap fun m => m.1 :: m.2⟩

def Tree.numbers (v : Tree) : List Bytes :=
  v.fold ⟨[], fun _ => [], fun t => [t], fun _ => [], List.flatten,
    fun ms => ms.flatMap fun m => m.2⟩

def Part.bodies : Part → List Bytes
  | .value v => v.bodies
  | .items vs => vs.flatMap Tree.bodies
  | .members ms => ms.flatMap fun m => m.1 :: m.2.bodies

theorem Tree.bodies_array (vs : List Tree) : (Tree.array vs).bodies = vs.flatMap Tree.bodies := by
  rw [Tree.bodies, Tree.fold_array, List.flatMap_def]
  rfl

theorem Tree.bodies_object (ms : List (Bytes × Tree)) :
    (Tree.object ms).bodies = ms.flatMap fun m => m.1 :: m.2.bodies := by
  rw [Tree.bodies, Tree.fold_object]
  exact List.flatMap_map _ _ ms

theorem Tree.numbers_array (vs : List Tree) :
    (Tree.array vs).numbers = vs.flatMap Tree.numbers := by
  rw [Tree.numbers, Tree.fold_array, List.flatMap_def]
  rfl

theorem Tree.numbers_object (ms : List (Bytes × Tree)) :
    (Tree.object ms).numbers = ms.flatMap fun m => m.2.numbers := by
  rw [Tree.numbers, Tree.fold_object]
  exact List.flatMap_map _ _ ms

section
variable {S T : Bytes → Prop} {p : Part} {t : Bytes}

theorem Spells.of_bodies (h : Spells S p t) : (∀ b ∈ p.bodies, S b → T b) → Spells T p t := by
  induction h with
  | null => exact fun _ => .null
  | bool b => exact fun _ => .bool b
  | number hn => exact fun _ => .number hn
  | @string b hb => exact fun hT => .string (hT b (List.mem_singleton.mpr rfl) hb)
  | noItems hw => exact fun _ => .noItems hw
  | array _ ih =>
    intro hT
    exact .array (ih fun b hb => hT b (by rw [Part.bodies, Tree.bodies_array]; exact hb))
  | noMembers hw => exact fun _ => .noMembers hw
  | object _ ih =>
    intro hT
    exact .object (ih fun b hb => hT b (by rw [Part.bodies, Tree.bodies_object]; exact hb))
  | item hw _ hw' ih =>
    exact fun hT => .item hw (ih fun b hb => hT b (by simp_all [Part.bodies])) hw'
  | items hw _ hw' _ ih ihs =>
    intro hT
    exact .items hw (ih fun b hb => hT b (by simp_all [Part.bodies])) hw'
      (ihs fun b hb => hT b (List.mem_append_right _ hb))
  | member hw hk hw₁ hw₂ _ hw' ih =>
    intro hT
    exact .member hw (hT _ (by simp [Part.bodies]) hk) hw₁ hw₂
      (ih fun b hb => hT b (by simp_all [Part.bodies])) hw'
  | members hw hk hw₁ hw₂ _ hw' _ ih ihs =>
    intro hT
    exact .members hw (hT _ (by simp [Part.bodies]) hk) hw₁ hw₂
      (ih fun b hb => hT b (by simp_all [Part.bodies])) hw'
        (ihs fun b hb => hT b (List.mem_append_right _ hb))

theorem Spells.bodies (h : Spells S p t) : ∀ b ∈ p.bodies, S b := by
  induction h with
  | null => exact fun b hb => by cases hb
  | bool _ => exact fun b hb => by cases hb
  | number _ => exact fun b hb => by cases hb
  | string hb => exact fun b hmem => List.mem_singleton.mp hmem ▸ hb
  | noItems _ => exact fun b hb => by cases hb
  | array _ ih => exact fun b hb => ih b (by rw [Part.bodies, Tree.bodies_array] at hb; exact hb)
  | noMembers _ => exact fun b hb => by cases hb
  | object _ ih => exact fun b hb => ih b (by rw [Part.bodies, Tree.bodies_object] at hb; exact hb)
  | item _ _ _ ih => exact fun b hb => ih b (by simp_all [Part.bodies])
  | items _ _ _ _ ih ihs => exact fun b hb => (List.mem_append.mp hb).elim (ih b) (ihs b)
  | member _ hk _ _ _ _ ih =>
    intro b hb
    simp only [Part.bodies, List.flatMap_cons, List.flatMap_nil, List.append_nil,
      List.mem_cons] at hb
    exact hb.elim (· ▸ hk) (ih b)
  | members _ hk _ _ _ _ _ ih ihs =>
    intro b hb
    simp only [Part.bodies, List.flatMap_cons, List.mem_append, List.mem_cons] at hb
    rcases hb with (rfl | hb) | hb
    · exact hk
    · exact ih b hb
    · exact ihs b hb

theorem Text.of_bodies {v : Tree} (h : Text S t v) (hT : ∀ b ∈ v.bodies, S b → T b) :
    Text T t v := by
  obtain ⟨w, t', w', hw, ht, hw', rfl⟩ := h
  exact ⟨w, t', w', hw, ht.of_bodies hT, hw', rfl⟩

theorem Text.bodies {v : Tree} (h : Text S t v) : ∀ b ∈ v.bodies, S b := by
  obtain ⟨w, t', w', -, ht, -⟩ := h
  exact ht.bodies

/-- A text spells at most one tree. -/
theorem Text.unique {v v' : Tree} (hS : ∀ b, S b → Delimited b) (hT : ∀ b, T b → Delimited b)
    (h : Text S t v) (h' : Text T t v') : v = v' := by
  have hr := (read_eq_some fun _ => Iff.rfl).mpr (h.of_bodies fun b _ => hS b)
  have hr' := (read_eq_some fun _ => Iff.rfl).mpr (h'.of_bodies fun b _ => hT b)
  exact Option.some.inj (hr.symm.trans hr')

end

/-! ### Objects -/

section
variable {α : Type}

theorem keyLess_trans {a b c : Bytes} (h : keyLess a b) (h' : keyLess b c) : keyLess a c :=
  lt_trans h h'

theorem map_toNat_injective : Function.Injective (List.map UInt8.toNat) :=
  List.map_injective_iff.mpr fun _ _ => UInt8.toNat_inj.mp

theorem keyLess_of_not {a b : Bytes} (h : ¬ keyLess a b) (hne : a ≠ b) : keyLess b a :=
  lt_of_le_of_ne (not_lt.mp h) fun heq => hne (map_toNat_injective heq.symm)

/-- Fields by ascending key, no key twice. -/
def Ascending (fields : List (Bytes × α)) : Prop := fields.Pairwise fun a b => keyLess a.1 b.1

theorem put_spec (k : Bytes) (v : α) {fields : List (Bytes × α)} (h : Ascending fields)
    (hk : ∀ e ∈ fields, e.1 ≠ k) :
    Ascending (put k v fields) ∧ (put k v fields).Perm ((k, v) :: fields) := by
  induction fields with
  | nil => exact ⟨List.pairwise_singleton _ _, .refl _⟩
  | cons e rest ih =>
    obtain ⟨he, hrest⟩ := List.pairwise_cons.mp h
    rw [put]
    by_cases hlt : keyLess k e.1
    · rw [if_pos hlt]
      refine ⟨List.pairwise_cons.mpr ⟨fun x hx => ?_, h⟩, .refl _⟩
      rcases List.mem_cons.mp hx with rfl | hx
      · exact hlt
      · exact keyLess_trans hlt (he x hx)
    · have hne : k ≠ e.1 := fun heq => hk e (by simp) heq.symm
      rw [if_neg hlt, if_neg hne]
      obtain ⟨hasc, hperm⟩ := ih hrest fun x hx => hk x (by simp [hx])
      refine ⟨List.pairwise_cons.mpr ⟨fun x hx => ?_, hasc⟩, (hperm.cons e).trans (.swap _ _ _)⟩
      rcases List.mem_cons.mp (hperm.mem_iff.mp hx) with rfl | hx
      · exact keyLess_of_not hlt hne
      · exact he x hx

theorem Ascending.eq_of_perm {l l' : List (Bytes × α)} (h : Ascending l) (h' : Ascending l')
    (hp : l.Perm l') :
    l = l' :=
  hp.eq_of_pairwise (fun _ _ _ _ hab hba => absurd (keyLess_trans hab hba) (lt_irrefl _)) h h'

theorem Ascending.nodup {l : List (Bytes × α)} (h : Ascending l) : (l.map Prod.fst).Nodup :=
  List.pairwise_map.mpr (h.imp fun hlt heq => absurd (heq ▸ hlt) (lt_irrefl _))

theorem putAll_perm {l : List (Bytes × α)} (hl : (l.map Prod.fst).Nodup) :
    Ascending (putAll l) ∧ (putAll l).Perm l := by
  suffices ∀ acc, Ascending acc → (∀ e ∈ acc, ∀ f ∈ l, e.1 ≠ f.1) →
      Ascending (l.foldl (fun acc f => put f.1 f.2 acc) acc) ∧
        (l.foldl (fun acc f => put f.1 f.2 acc) acc).Perm (acc ++ l) by
    exact this [] .nil fun e he => by cases he
  induction l with
  | nil => exact fun acc hacc _ => ⟨hacc, by simp⟩
  | cons f l ih =>
    intro acc hacc hne
    rw [List.map_cons, List.nodup_cons] at hl
    obtain ⟨hput, hperm⟩ := put_spec f.1 f.2 hacc fun e he => hne e he f (by simp)
    obtain ⟨hfold, hfperm⟩ := ih hl.2 (put f.1 f.2 acc) hput fun e he g hg => by
      rcases List.mem_cons.mp (hperm.mem_iff.mp he) with rfl | he
      · exact fun heq => hl.1 (List.mem_map.mpr ⟨g, hg, heq.symm⟩)
      · exact hne e he g (by simp [hg])
    rw [List.foldl_cons]
    refine ⟨hfold, hfperm.trans ((hperm.append_right l).trans ?_)⟩
    exact List.perm_middle.symm

/-- Fields written in any order are the fields again. -/
theorem putAll_eq {l fields : List (Bytes × α)} (h : Ascending fields) (hp : l.Perm fields) :
    putAll l = fields := by
  obtain ⟨hasc, hperm⟩ := putAll_perm ((hp.map Prod.fst).nodup_iff.mpr h.nodup)
  exact hasc.eq_of_perm h (hperm.trans hp)

end

/-! ### What a text denotes -/

def denotation : Algebra (Option Data) where
  null := some .null
  bool b := some (.bool b)
  number t := (integer? t).map .integer
  string b := (stringValue b).map .string
  array vs := (vs.mapM id).map .array
  object ms :=
    (ms.mapM fun m => (stringValue m.1).bind fun k => m.2.map fun v => (k, v)).map fun fields =>
    .object (putAll fields)

/-- The data of a text; only integers have a meaning among the numbers. -/
def Tree.denote (v : Tree) : Option Data := v.fold denotation

theorem mapM_map_id {α β : Type} (f : α → Option β) (l : List α) :
    (l.map f).mapM id = l.mapM f := by
  induction l with
  | nil => rfl
  | cons a l ih => rw [List.map_cons, List.mapM_cons, List.mapM_cons, ih]; rfl

theorem mapM_map_snd {α β γ : Type} (f : α → β) (g : Bytes × β → Option γ) (l : List (Bytes × α)) :
    (l.map fun m => (m.1, f m.2)).mapM g = l.mapM fun m => g (m.1, f m.2) := by
  induction l with
  | nil => rfl
  | cons a l ih => rw [List.map_cons, List.mapM_cons, List.mapM_cons, ih]

theorem Tree.denote_array (vs : List Tree) :
    (Tree.array vs).denote = (vs.mapM Tree.denote).map .array := by
  rw [Tree.denote, Tree.fold_array, ← mapM_map_id]
  rfl

theorem Tree.denote_object (ms : List (Bytes × Tree)) : (Tree.object ms).denote =
    (ms.mapM fun m => (stringValue m.1).bind fun k => m.2.denote.map fun v => (k, v)).map
      fun fields =>
      .object (putAll fields) := by
  rw [Tree.denote, Tree.fold_object]
  exact congrArg (Option.map _) (mapM_map_snd _ _ ms)

/-- A parser conforms if it reads every JSON text that denotes data as those data. -/
def Conforming (parse : Bytes → Option Data) : Prop :=
  ∀ text T d, Text Rfc text T → T.denote = some d → parse text = some d

end Foundation.Json
