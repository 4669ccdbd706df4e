import Mathlib.Data.Nat.Digits.Lemmas
import Foundation.Lib.JsonData

/-! The parts of Go's `strconv` and `encoding/base64` that read and write texts, and how the
quoting of Go strings relates to the strings of JSON. -/

namespace Foundation.Strconv

open Json (escape quotationMark hexDigit? hex? isDigit quoted)

/-- `strconv.IsPrint`: beyond Latin-1 it is a table of the Unicode version, left open here. -/
structure Printable where
  isPrint : Char → Bool
  latin : ∀ c : Char, c.toNat ≤ 0xFF → isPrint c =
    (decide (0x20 ≤ c.toNat ∧ c.toNat < 0x7F) || decide (0xA1 ≤ c.toNat ∧ c.toNat ≠ 0xAD))

def lowerhex (n : ℕ) : UInt8 :=
  if n < 10 then UInt8.ofNat (0x30 + n) else UInt8.ofNat (0x61 + (n - 10))

/-- The low `width` hexadecimal digits of a number. -/
def hexDigits : ℕ → ℕ → Bytes
  | 0, _ => []
  | width + 1, n => hexDigits width (n / 16) ++ [lowerhex (n % 16)]

/-- The control characters with an escape of their own in Go. -/
def controlEscapes : List (ℕ × UInt8) :=
  [(0x07, 0x61), (0x08, 0x62), (0x0C, 0x66), (0x0A, 0x6E), (0x0D, 0x72), (0x09, 0x74), (0x0B, 0x76)]

def appendEscapedRune (p : Printable) (r : Char) : Bytes :=
  if r = '"' ∨ r = '\\' then [escape, UInt8.ofNat r.toNat]
  else if p.isPrint r then Utf8.encodeChar r
  else match controlEscapes.lookup r.toNat with
    | some e => [escape, e]
    | none =>
      if r.toNat < 0x20 ∨ r.toNat = 0x7F then escape :: 0x78 :: hexDigits 2 r.toNat
      else if r.toNat < 0x10000 then escape :: 0x75 :: hexDigits 4 r.toNat
      else escape :: 0x55 :: hexDigits 8 r.toNat

/-- The loop of `appendQuotedWith`; a byte that starts no rune is escaped by itself. -/
def quoteLoop (p : Printable) : ℕ → Bytes → Bytes
  | _, [] => []
  | 0, _ :: _ => []
  | fuel + 1, b :: s =>
    match Utf8.first? (b :: s) with
    | some c => appendEscapedRune p c ++ quoteLoop p fuel ((b :: s).drop (Utf8.encodeChar c).length)
    | none => escape :: 0x78 :: hexDigits 2 b.toNat ++ quoteLoop p fuel s

def quoteBody (p : Printable) (s : Bytes) : Bytes := quoteLoop p s.length s

def appendQuote (p : Printable) (dst s : Bytes) : Bytes := dst ++ quoted (quoteBody p s)

def decimal (n : ℕ) : Bytes :=
  if n = 0 then [0x30] else (Nat.digits 10 n).reverse.map fun d => UInt8.ofNat (0x30 + d)

def appendUint (dst : Bytes) (n : ℕ) : Bytes := dst ++ decimal n

def appendInt (dst : Bytes) (i : ℤ) : Bytes :=
  if i < 0 then dst ++ 0x2D :: decimal i.natAbs else dst ++ decimal i.natAbs

def base64Digit (n : ℕ) : UInt8 :=
  if n < 26 then UInt8.ofNat (0x41 + n)
  else if n < 52 then UInt8.ofNat (0x61 + (n - 26))
  else if n < 62 then UInt8.ofNat (0x30 + (n - 52))
  else if n = 62 then 0x2B
  else 0x2F

def encodeToString : Bytes → Bytes
  | [] => []
  | [a] => [base64Digit (a.toNat / 4), base64Digit (a.toNat % 4 * 16), 0x3D, 0x3D]
  | [a, b] => [base64Digit (a.toNat / 4), base64Digit (a.toNat % 4 * 16 + b.toNat / 16),
      base64Digit (b.toNat % 16 * 4), 0x3D]
  | a :: b :: c :: rest =>
    base64Digit (a.toNat / 4) :: base64Digit (a.toNat % 4 * 16 + b.toNat / 16) ::
      base64Digit (b.toNat % 16 * 4 + c.toNat / 64) :: base64Digit (c.toNat % 64) ::
        encodeToString rest

/-- The escapes of two characters in a Go string within double quotes. -/
def goEscapes : List (UInt8 × ℕ) :=
  [(0x61, 0x07), (0x62, 0x08), (0x66, 0x0C), (0x6E, 0x0A), (0x72, 0x0D), (0x74, 0x09), (0x76, 0x0B),
    (0x5C, 0x5C), (0x22, 0x22)]

def octalDigit? (b : UInt8) : Option ℕ :=
  if 0x30 ≤ b ∧ b ≤ 0x37 then some (b.toNat - 0x30) else none

def hexRune (width : ℕ) (rest : Bytes) : Option (Char × Bool × Bytes) :=
  if rest.length < width then none
  else (hex? (rest.take width)).bind fun v =>
    if v.isValidChar then some (Char.ofNat v, true, rest.drop width) else none

/-- `strconv.UnquoteChar` within double quotes: the rune, whether it is written as UTF-8 rather than
as one byte, and the tail. -/
def unquoteChar : Bytes → Option (Char × Bool × Bytes)
  | [] => none
  | c :: rest =>
    if c = quotationMark then none
    else if 0x80 ≤ c then
      match Utf8.first? (c :: rest) with
      | some r => some (r, true, (c :: rest).drop (Utf8.encodeChar r).length)
      | none => some (Char.ofNat 0xFFFD, true, rest)
    else if c ≠ escape then some (Char.ofNat c.toNat, false, rest)
    else match rest with
      | [] => none
      | e :: rest =>
        match goEscapes.lookup e with
        | some n => some (Char.ofNat n, false, rest)
        | none =>
          if e = 0x78 then
            if rest.length < 2 then none
            else (hex? (rest.take 2)).map fun v => (Char.ofNat v, false, rest.drop 2)
          else if e = 0x75 then hexRune 4 rest
          else if e = 0x55 then hexRune 8 rest
          else match octalDigit? e, rest with
            | some d₂, e₁ :: e₀ :: rest =>
              (octalDigit? e₁).bind fun d₁ => (octalDigit? e₀).bind fun d₀ =>
                if 255 < d₂ * 64 + d₁ * 8 + d₀ then none
                else some (Char.ofNat (d₂ * 64 + d₁ * 8 + d₀), false, rest)
            | _, _ => none

/-- The loop of `unquote`, up to the closing quote, which must be the last byte. -/
def unquoteLoop : ℕ → Bytes → Option Bytes
  | _, [] => none
  | 0, _ :: _ => none
  | fuel + 1, c :: rest =>
    if c = quotationMark then if rest = [] then some [] else none
    else if c = 0x0A then none
    else (unquoteChar (c :: rest)).bind fun r =>
      (unquoteLoop fuel r.2.2).map fun out =>
        (if r.1.toNat < 0x80 ∨ r.2.1 = false then [UInt8.ofNat r.1.toNat]
          else Utf8.encodeChar r.1) ++ out

/-- `strconv.Unquote` of a text in double quotes. Its shortcut for texts without escapes
returns what the loop does. -/
def unquote : Bytes → Option Bytes
  | [] => none
  | c :: s => if c = quotationMark then unquoteLoop s.length s else none

def parseInt (s : Bytes) : Option ℤ :=
  let value := match s with
    | [] => none
    | c :: ds =>
      if c = 0x2B then (Json.natural? ds).map fun n => (n : ℤ)
      else if c = 0x2D then (Json.natural? ds).map fun n => -(n : ℤ)
      else (Json.natural? (c :: ds)).map fun n => (n : ℤ)
  value.filter fun i => decide (-2 ^ 63 ≤ i ∧ i < 2 ^ 63)

/-! ### Quoting -/

variable {n : ℕ} {c : Char} {cs : List Char} {s : Bytes} {t : Bytes}

section
variable (p : Printable)

/-- The characters whose Go quotation is a JSON one. -/
def Quotable (c : Char) : Prop :=
  c = '"' ∨ c = '\\' ∨ p.isPrint c = true ∨ c.toNat ∈ [0x08, 0x09, 0x0A, 0x0C, 0x0D] ∨
    0x20 ≤ c.toNat ∧ c.toNat ≠ 0x7F ∧ c.toNat < 0x10000

theorem lowerhex_spec (h : n < 16) : hexDigit? (lowerhex n) = some n := by
  revert h
  revert n
  decide

theorem length_hexDigits (width n : ℕ) : (hexDigits width n).length = width := by
  induction width generalizing n with
  | zero => rfl
  | succ width ih => rw [hexDigits, List.length_append, ih]; rfl

theorem hex?_hexDigits {width n : ℕ} (h : n < 16 ^ width) : hex? (hexDigits width n) = some n := by
  induction width generalizing n with
  | zero =>
    obtain rfl : n = 0 := by simpa using h
    rfl
  | succ width ih =>
    have hdiv : n / 16 < 16 ^ width := by
      rw [Nat.div_lt_iff_lt_mul (by norm_num), ← pow_succ]
      exact h
    have hih := ih hdiv
    rw [hex?] at hih
    rw [hex?, hexDigits, List.foldlM_append, hih]
    simp only [Option.bind_eq_bind, Option.bind_some, List.foldlM_cons, List.foldlM_nil,
      lowerhex_spec (Nat.mod_lt n (show 16 > 0 by norm_num)), Option.map_some]
    exact congrArg some (Nat.div_add_mod' n 16)

theorem hexDigits_plain (width n : ℕ) :
    ∀ d ∈ hexDigits width n, d ≠ quotationMark ∧ d ≠ escape ∧ 0x20 ≤ d := by
  induction width generalizing n with
  | zero => exact fun d hd => by cases hd
  | succ width ih =>
    intro d hd
    rw [hexDigits, List.mem_append, List.mem_singleton] at hd
    rcases hd with hd | rfl
    · exact ih _ d hd
    · exact Json.hexDigit?_plain (lowerhex_spec (Nat.mod_lt n (by norm_num)))

variable {p}

theorem le_of_isPrint (h : p.isPrint c = true) : 0x20 ≤ c.toNat := by
  by_contra hlt
  rw [p.latin c (by omega)] at h
  simp only [Bool.or_eq_true, decide_eq_true_eq] at h
  omega

theorem controlEscapes_none (h : n < 7 ∨ 13 < n) : controlEscapes.lookup n = none := by
  rw [List.lookup_eq_none_iff]
  intro e he
  simp only [controlEscapes, List.mem_cons, List.not_mem_nil, or_false] at he
  rw [bne_iff_ne]
  rcases he with rfl | rfl | rfl | rfl | rfl | rfl | rfl <;> simp only <;> omega

/-- A quotable character is written as one `char` of JSON, standing for itself. -/
theorem appendEscapedRune_isChar (h : Quotable p c) :
    Json.IsChar (appendEscapedRune p c) c.toNat := by
  rw [appendEscapedRune]
  by_cases hq : c = '"' ∨ c = '\\'
  · rw [if_pos hq]
    rcases hq with rfl | rfl
    · exact .escaped (by decide)
    · exact .escaped (by decide)
  rw [if_neg hq]
  have hqe := not_or.mp hq
  by_cases hp : p.isPrint c = true
  · rw [if_pos hp]
    exact .unescaped (le_of_isPrint hp) hqe.1 hqe.2
  rw [if_neg hp]
  rcases h with h | h | h | h | ⟨hlo, hne, hhi⟩
  · exact absurd h hqe.1
  · exact absurd h hqe.2
  · exact absurd h hp
  · simp only [List.mem_cons, List.not_mem_nil, or_false] at h
    rcases h with h | h | h | h | h <;> rw [h] <;> exact .escaped (by decide)
  · rw [controlEscapes_none (by omega)]
    simp only
    rw [if_neg (by omega), if_pos hhi]
    exact .unicode (length_hexDigits 4 _) (hex?_hexDigits (by simpa using hhi))

/-- Any other character is written with an escape JSON does not have. -/
theorem appendEscapedRune_foreign (h : ¬ Quotable p c) :
    ∃ e ds, appendEscapedRune p c = escape :: e :: ds ∧ e ≠ 0x75 ∧ Json.escapes.lookup e = none ∧
      ∀ d ∈ ds, d ≠ quotationMark ∧ d ≠ escape ∧ 0x20 ≤ d := by
  simp only [Quotable, not_or, List.mem_cons, List.not_mem_nil, or_false] at h
  obtain ⟨hq, he, hp, ⟨h8, h9, hA, hC, hD⟩, hplain⟩ := h
  rw [appendEscapedRune, if_neg (by tauto), if_neg hp]
  by_cases h7 : c.toNat = 0x07
  · rw [h7]
    exact ⟨_, [], rfl, by decide, by decide, fun d hd => by cases hd⟩
  by_cases hB : c.toNat = 0x0B
  · rw [hB]
    exact ⟨_, [], rfl, by decide, by decide, fun d hd => by cases hd⟩
  rw [controlEscapes_none (by omega)]
  simp only
  by_cases hx : c.toNat < 0x20 ∨ c.toNat = 0x7F
  · rw [if_pos hx]
    exact ⟨_, _, rfl, by decide, by decide, hexDigits_plain _ _⟩
  · rw [if_neg hx, if_neg (by omega)]
    exact ⟨_, _, rfl, by decide, by decide, hexDigits_plain _ _⟩

theorem appendEscapedRune_delimited (c : Char) {b : Bytes} (hb : Json.Delimited b) :
    Json.Delimited (appendEscapedRune p c ++ b) := by
  by_cases h : Quotable p c
  · exact (appendEscapedRune_isChar h).delimited hb
  · obtain ⟨e, ds, heq, -, -, hds⟩ := appendEscapedRune_foreign h
    rw [heq]
    exact .escaped e (hb.append hds)

variable (p) in
theorem quoteLoop_delimited (fuel : ℕ) (s : Bytes) : Json.Delimited (quoteLoop p fuel s) := by
  fun_induction quoteLoop p fuel s with
  | case1 => exact .nil
  | case2 => exact .nil
  | case3 fuel b s c _ ih => exact appendEscapedRune_delimited c ih
  | case4 fuel b s _ ih => exact .escaped _ (ih.append (hexDigits_plain _ _))

variable (p) in
theorem quoteBody_delimited (s : Bytes) : Json.Delimited (quoteBody p s) :=
  quoteLoop_delimited p _ s

theorem quoteLoop_encode (h : ∀ c ∈ cs, Quotable p c) :
    ∀ fuel, (Utf8.encode cs).length ≤ fuel →
      Json.IsString (quoteLoop p fuel (Utf8.encode cs)) (cs.map Char.toNat) := by
  induction cs with
  | nil => intro fuel _; rw [Utf8.encode_nil, quoteLoop]; exact .nil
  | cons c cs ih =>
    intro fuel hfuel
    have hfirst := Utf8.first?_append c (Utf8.encode cs)
    have hdrop : (Utf8.encodeChar c ++ Utf8.encode cs).drop (Utf8.encodeChar c).length =
        Utf8.encode cs :=
      List.drop_left
    rw [Utf8.encode_cons] at hfuel ⊢
    obtain ⟨b, bs, hbs⟩ := List.exists_cons_of_ne_nil (Utf8.encodeChar_ne_nil c)
    have hlen : (Utf8.encode cs).length < fuel := by
      rw [hbs, List.length_append, List.length_cons] at hfuel
      omega
    obtain ⟨fuel, rfl⟩ := Nat.exists_eq_succ_of_ne_zero (show fuel ≠ 0 by omega)
    rw [hbs, List.cons_append] at hfirst hdrop ⊢
    rw [quoteLoop, hfirst]
    simp only
    rw [hbs, hdrop]
    exact .cons (appendEscapedRune_isChar (h c (by simp)))
      (ih (fun d hd => h d (by simp [hd])) fuel (by omega))

theorem quoteLoop_rfc {fuel : ℕ} (hlen : s.length ≤ fuel) (h : Json.Rfc (quoteLoop p fuel s)) :
    ∃ cs, s = Utf8.encode cs ∧ ∀ c ∈ cs, Quotable p c := by
  fun_induction quoteLoop p fuel s with
  | case1 => exact ⟨[], rfl, fun c hc => by cases hc⟩
  | case2 => simp at hlen
  | case3 fuel b s c hfirst ih =>
    obtain ⟨ns, hns⟩ := h
    obtain ⟨rest, hrest⟩ := Utf8.first?_eq_some.mp hfirst
    have hdrop : (b :: s).drop (Utf8.encodeChar c).length = rest := by rw [hrest, List.drop_left]
    have hpos : 0 < (Utf8.encodeChar c).length :=
      List.length_pos_of_ne_nil (Utf8.encodeChar_ne_nil c)
    have hle : rest.length ≤ fuel := by
      have := congrArg List.length hrest
      rw [List.length_append] at this
      omega
    rw [hdrop] at hns ih
    by_cases hq : Quotable p c
    · have hchar := appendEscapedRune_isChar hq
      have hread := Json.readChar_complete hchar (quoteLoop p fuel rest)
      generalize hb : appendEscapedRune p c ++ quoteLoop p fuel rest = body at hns hread
      cases hns with
      | nil => exact absurd (List.append_eq_nil_iff.mp hb).1 hchar.ne_nil
      | cons ht hb' =>
        rw [Json.readChar_complete ht] at hread
        cases hread
        obtain ⟨cs, rfl, hcs⟩ := ih hle ⟨_, hb'⟩
        exact ⟨c :: cs, hrest, List.forall_mem_cons.mpr ⟨hq, hcs⟩⟩
    · obtain ⟨e, ds, heq, hu, hlook, -⟩ := appendEscapedRune_foreign hq
      rw [heq, List.cons_append, List.cons_append] at hns
      exact absurd ⟨ns, hns⟩ (Json.not_rfc_escape hu hlook _)
  | case4 fuel b s _ ih => exact absurd h (Json.not_rfc_escape (by decide) (by decide) _)

variable (p) in
/-- Strings whose Go quotation is a JSON string. -/
def QuotableString (s : Bytes) : Prop := ∃ cs, s = Utf8.encode cs ∧ ∀ c ∈ cs, Quotable p c

theorem quoteBody_rfc : Json.Rfc (quoteBody p s) ↔ QuotableString p s := by
  refine ⟨quoteLoop_rfc le_rfl, ?_⟩
  rintro ⟨cs, rfl, hcs⟩
  exact ⟨_, quoteLoop_encode hcs _ le_rfl⟩

theorem scalars_map_toNat (cs : List Char) : Json.scalars (cs.map Char.toNat) = some cs := by
  have hvalid : ∀ c : Char, c.toNat.isValidChar := fun c => c.valid
  induction cs with
  | nil => rfl
  | cons c cs ih =>
    cases cs with
    | nil => rw [List.map_cons, List.map_nil, Json.scalars, if_pos (hvalid c), Char.ofNat_toNat]
    | cons d cs =>
      rw [List.map_cons, List.map_cons, Json.scalars, if_pos (hvalid c), ← List.map_cons, ih,
        Char.ofNat_toNat]
      rfl

/-- JSON reads a quotation back as the string that was quoted. -/
theorem stringValue_quoteBody (h : QuotableString p s) :
    Json.stringValue (quoteBody p s) = some s := by
  obtain ⟨cs, rfl, hcs⟩ := h
  rw [Json.stringValue, quoteBody, Json.readString_eq_some.mpr (quoteLoop_encode hcs _ le_rfl),
    Option.bind_some,
    scalars_map_toNat]
  rfl

theorem toNat_ofNat (h : n.isValidChar) : (Char.ofNat n).toNat = n := by
  rw [Char.ofNat, dif_pos h]
  rfl

theorem encodeChar_ofByte {b : UInt8} (h : b < 0x80) :
    Utf8.encodeChar (Char.ofNat b.toNat) = [b] ∧ (Char.ofNat b.toNat).toNat = b.toNat := by
  have hlt : b.toNat < 128 := UInt8.lt_iff_toNat_lt.mp h
  have hnat : (Char.ofNat b.toNat).toNat = b.toNat := toNat_ofNat (.inl (by omega))
  rw [Utf8.encodeChar_of_lt (by omega), hnat, UInt8.ofNat_toNat]
  exact ⟨rfl, rfl⟩

theorem quotable_of_ascii (h : ∀ b ∈ s, 0x20 ≤ b ∧ b < 0x7F) : QuotableString p s := by
  refine ⟨s.map fun b => Char.ofNat b.toNat, ?_, ?_⟩
  · induction s with
    | nil => rfl
    | cons b s ih =>
      rw [List.map_cons, Utf8.encode_cons, ← ih fun c hc => h c (by simp [hc]),
        (encodeChar_ofByte (UInt8.lt_trans (h b (by simp)).2 (by decide))).1]
      rfl
  · intro c hc
    obtain ⟨b, hb, rfl⟩ := List.mem_map.mp hc
    obtain ⟨hlo, hhi⟩ := h b hb
    have hnat := (encodeChar_ofByte (UInt8.lt_trans hhi (by decide))).2
    have hlo' : 32 ≤ b.toNat := UInt8.le_iff_toNat_le.mp hlo
    have hhi' : b.toNat < 127 := UInt8.lt_iff_toNat_lt.mp hhi
    exact .inr (.inr (.inr (.inr (by omega))))

theorem base64Digit_ascii (n : ℕ) : 0x20 ≤ base64Digit n ∧ base64Digit n < 0x7F := by
  have hof : ∀ k : ℕ, 32 ≤ k → k < 127 → (0x20 : UInt8) ≤ UInt8.ofNat k ∧ UInt8.ofNat k < 0x7F := by
    intro k hlo hhi
    rw [UInt8.le_iff_toNat_le, UInt8.lt_iff_toNat_lt, UInt8.toNat_ofNat',
      Nat.mod_eq_of_lt (by omega)]
    exact ⟨hlo, hhi⟩
  rw [base64Digit]
  split_ifs
  · exact hof _ (by omega) (by omega)
  · exact hof _ (by omega) (by omega)
  · exact hof _ (by omega) (by omega)
  · decide
  · decide

variable (p) in
theorem encodeToString_quotable (s : Bytes) : QuotableString p (encodeToString s) := by
  refine quotable_of_ascii ?_
  fun_induction encodeToString s with
  | case1 => exact fun b hb => by cases hb
  | case2 a => simp only [List.forall_mem_cons, base64Digit_ascii]; decide +kernel
  | case3 a b => simp only [List.forall_mem_cons, base64Digit_ascii]; decide +kernel
  | case4 a b c rest ih => simpa only [List.forall_mem_cons, base64Digit_ascii, true_and] using ih

/-! ### Numbers -/

theorem isDigit_ofNat {d : ℕ} (h : d < 10) : isDigit (UInt8.ofNat (0x30 + d)) = true := by
  revert h
  revert d
  decide

theorem decimal_digits (n : ℕ) : ∀ d ∈ decimal n, isDigit d = true := by
  rw [decimal]
  split_ifs with h
  · decide +kernel
  · intro d hd
    obtain ⟨k, hk, rfl⟩ := List.mem_map.mp hd
    exact isDigit_ofNat (Nat.digits_lt_base (by norm_num) (List.mem_reverse.mp hk))

theorem decimal_isInt (n : ℕ) : Json.IsInt (decimal n) := by
  have hdigits := decimal_digits n
  rw [decimal] at hdigits ⊢
  split_ifs at hdigits ⊢ with h
  · exact .zero
  · have hne : Nat.digits 10 n ≠ [] := Nat.digits_ne_nil_iff_ne_zero.mpr h
    have hlast : (Nat.digits 10 n).getLast hne ≠ 0 := Nat.getLast_digit_ne_zero 10 h
    obtain ⟨init, hinit⟩ : ∃ init, Nat.digits 10 n = init ++ [(Nat.digits 10 n).getLast hne] :=
      ⟨_, (List.dropLast_append_getLast hne).symm⟩
    have hlt : (Nat.digits 10 n).getLast hne < 10 :=
      Nat.digits_lt_base (by norm_num) (List.getLast_mem hne)
    generalize (Nat.digits 10 n).getLast hne = d at hlast hlt hinit
    rw [hinit, List.reverse_append, List.reverse_singleton, List.singleton_append,
      List.map_cons] at hdigits ⊢
    refine .digits (isDigit_ofNat hlt) ?_ fun x hx => hdigits x (List.mem_cons_of_mem _ hx)
    intro heq
    have := congrArg UInt8.toNat heq
    rw [UInt8.toNat_ofNat', Nat.mod_eq_of_lt (by omega)] at this
    exact hlast (by simpa using this)

theorem foldl_digits {ds : List ℕ} (h : ∀ d ∈ ds, d < 10) :
    (ds.reverse.map fun d => UInt8.ofNat (0x30 + d)).foldl (fun n d => n * 10 +
      (d.toNat - 0x30)) 0 =
      Nat.ofDigits 10 ds := by
  induction ds with
  | nil => rfl
  | cons d ds ih =>
    have hd := h d (by simp)
    rw [List.reverse_cons, List.map_append, List.foldl_append, ih fun x hx => h x (by simp [hx]),
      Nat.ofDigits_cons, List.map_singleton, List.foldl_cons, List.foldl_nil, UInt8.toNat_ofNat',
      Nat.mod_eq_of_lt (by omega)]
    omega

theorem natural?_decimal (n : ℕ) : Json.natural? (decimal n) = some n := by
  have hne : decimal n ≠ [] := by
    obtain ⟨d, ds, h, -⟩ := (decimal_isInt n).head
    rw [h]
    simp
  rw [Json.natural?, if_pos ⟨hne, List.all_eq_true.mpr (decimal_digits n)⟩, decimal]
  split_ifs with h
  · rw [h]
    rfl
  · rw [foldl_digits fun d hd => Nat.digits_lt_base (by norm_num) hd, Nat.ofDigits_digits]

theorem decimal_isNumber (n : ℕ) :
    Json.IsNumber (decimal n) ∧ Json.IsNumber (0x2D :: decimal n) := by
  have hpos :=
    Json.IsNumber.mk (by decide : [] ∈ ([[], [0x2D]] : List Bytes)) (decimal_isInt n) .none .none
  have hneg :=
    Json.IsNumber.mk (by decide : [0x2D] ∈ ([[], [0x2D]] : List Bytes))
    (decimal_isInt n) .none .none
  simp only [List.nil_append, List.append_nil, List.singleton_append] at hpos hneg
  exact ⟨hpos, hneg⟩

theorem integer?_decimal (n : ℕ) :
    Json.integer? (decimal n) = some (n : ℤ) ∧
      Json.integer? (0x2D :: decimal n) = some (-(n : ℤ)) := by
  refine ⟨?_, by rw [Json.integer?, if_pos rfl, natural?_decimal]; rfl⟩
  have hn := natural?_decimal n
  obtain ⟨d, ds, h, hd⟩ := (decimal_isInt n).head
  rw [h] at hn ⊢
  rw [Json.integer?, if_neg (Json.ne_of_isDigit hd (by decide)), hn]
  rfl

theorem appendInt_spec (dst : Bytes) (i : ℤ) :
    ∃ t, appendInt dst i = dst ++ t ∧ Json.IsNumber t ∧ Json.integer? t = some i := by
  rw [appendInt]
  by_cases h : i < 0
  · rw [if_pos h]
    refine ⟨_, rfl, (decimal_isNumber _).2, ?_⟩
    rw [(integer?_decimal _).2]
    exact congrArg some (by omega)
  · rw [if_neg h]
    refine ⟨_, rfl, (decimal_isNumber _).1, ?_⟩
    rw [(integer?_decimal _).1]
    exact congrArg some (by omega)

/-! ### Strings that Go and JSON read alike -/

/-- A character written the same way in Go and in JSON. -/
inductive CommonChar : Bytes → Char → Prop
  | unescaped {c : Char} : 0x20 ≤ c.toNat → c ≠ '"' → c ≠ '\\' → CommonChar (Utf8.encodeChar c) c
  | escaped {b : UInt8} {n : ℕ} : Json.escapes.lookup b = some n → b ≠ 0x2F →
    CommonChar [escape, b] (Char.ofNat n)
  | unicode {ds : Bytes} {n : ℕ} : ds.length = 4 → hex? ds = some n → n.isValidChar →
      CommonChar (escape :: 0x75 :: ds) (Char.ofNat n)

inductive CommonString : Bytes → List Char → Prop
  | nil : CommonString [] []
  | cons {t b : Bytes} {c : Char} {cs : List Char} : CommonChar t c → CommonString b cs →
      CommonString (t ++ b) (c :: cs)

/-- The string bodies without `\/`, surrogates and anything only Go reads. -/
def Common (b : Bytes) : Prop := ∃ cs, CommonString b cs

/-- What the parser makes of the bytes between two quotes. -/
def goString (b : Bytes) : Option Bytes := if escape ∈ b then unquote (quoted b) else some b

theorem lookup_common {b : UInt8} (h : Json.escapes.lookup b = some n) (hb : b ≠ 0x2F) :
    goEscapes.lookup b = some n ∧ n < 0x80 := by
  have hmem : (b, n) ∈ Json.escapes := by
    obtain ⟨l₁, l₂, heq, -⟩ := List.lookup_eq_some_iff.mp h
    rw [heq]
    simp
  simp only [Json.escapes, List.mem_cons, List.not_mem_nil, or_false, Prod.mk.injEq] at hmem
  rcases hmem with h | h | h | h | h | h | h | h <;> obtain ⟨rfl, rfl⟩ := h
  · exact ⟨by decide, by decide⟩
  · exact ⟨by decide, by decide⟩
  · exact absurd rfl hb
  · exact ⟨by decide, by decide⟩
  · exact ⟨by decide, by decide⟩
  · exact ⟨by decide, by decide⟩
  · exact ⟨by decide, by decide⟩
  · exact ⟨by decide, by decide⟩

theorem CommonChar.isChar (h : CommonChar t c) : Json.IsChar t c.toNat := by
  cases h with
  | unescaped hc hq he => exact .unescaped hc hq he
  | @escaped b n hb hne =>
    have hn := (lookup_common hb hne).2
    rw [toNat_ofNat (.inl (by omega))]
    exact .escaped hb
  | unicode hlen hn hv =>
    rw [toNat_ofNat hv]
    exact .unicode hlen hn

theorem CommonString.isString {b : Bytes} (h : CommonString b cs) :
    Json.IsString b (cs.map Char.toNat) := by
  induction h with
  | nil => exact .nil
  | cons hc _ ih => exact .cons hc.isChar ih

theorem CommonString.stringValue {b : Bytes} (h : CommonString b cs) :
    Json.stringValue b = some (Utf8.encode cs) := by
  rw [Json.stringValue, Json.readString_eq_some.mpr h.isString, Option.bind_some, scalars_map_toNat]
  rfl

theorem unquoteChar_escape (e : UInt8) (rest : Bytes) : unquoteChar (escape :: e :: rest) =
    match goEscapes.lookup e with
    | some n => some (Char.ofNat n, false, rest)
    | none =>
      if e = 0x78 then
        if rest.length < 2 then none
        else (hex? (rest.take 2)).map fun v => (Char.ofNat v, false, rest.drop 2)
      else if e = 0x75 then hexRune 4 rest
      else if e = 0x55 then hexRune 8 rest
      else match octalDigit? e, rest with
        | some d₂, e₁ :: e₀ :: rest =>
          (octalDigit? e₁).bind fun d₁ => (octalDigit? e₀).bind fun d₀ =>
            if 255 < d₂ * 64 + d₁ * 8 + d₀ then none
            else some (Char.ofNat (d₂ * 64 + d₁ * 8 + d₀), false, rest)
        | _, _ => none := by
  rw [unquoteChar.eq_def]
  rfl

theorem unquoteChar_unicode {ds : Bytes} (hlen : ds.length = 4) (hn : hex? ds = some n)
    (r : Bytes) :
    unquoteChar (escape :: 0x75 :: (ds ++ r)) =
      if n.isValidChar then some (Char.ofNat n, true, r) else none := by
  have hlt : ¬ (ds ++ r).length < 4 := by rw [List.length_append]; omega
  rw [unquoteChar_escape]
  change hexRune 4 (ds ++ r) = _
  rw [hexRune, if_neg hlt, List.take_left' hlen, List.drop_left' hlen, hn]
  rfl

theorem unquoteChar_unescaped (hc : 0x20 ≤ c.toNat) (hq : c ≠ '"') (he : c ≠ '\\') (r : Bytes)  :
    unquoteChar (Utf8.encodeChar c ++ r) = some (c, decide (0x80 ≤ c.toNat), r) := by
  by_cases hlt : c.toNat < 0x80
  · have hof := encodeChar_ofByte (b := UInt8.ofNat c.toNat) (by
      rw [UInt8.lt_iff_toNat_lt, UInt8.toNat_ofNat', Nat.mod_eq_of_lt (by omega)]
      exact hlt)
    have hnat : (UInt8.ofNat c.toNat).toNat = c.toNat := by
      rw [UInt8.toNat_ofNat', Nat.mod_eq_of_lt (by omega)]
    have hplain := Json.plain_of_encodeChar hc hq he (d := UInt8.ofNat c.toNat)
      (by rw [Utf8.encodeChar_of_lt hlt]; exact List.mem_singleton.mpr rfl)
    rw [Utf8.encodeChar_of_lt hlt, List.singleton_append, unquoteChar.eq_def]
    simp only
    rw [if_neg hplain.1, if_neg, if_pos hplain.2.1, hnat, Char.ofNat_toNat]
    · rw [decide_eq_false (by omega)]
    · rw [UInt8.le_iff_toNat_le, hnat]
      exact Nat.not_le.mpr hlt
  · obtain ⟨b, bs, hbs⟩ := List.exists_cons_of_ne_nil (Utf8.encodeChar_ne_nil c)
    have hb :=
      Utf8.le_of_mem_encodeChar (Nat.not_lt.mp hlt) (hbs ▸ List.mem_cons_self : b ∈
      Utf8.encodeChar c)
    have hfirst := Utf8.first?_append c r
    have hdrop : (Utf8.encodeChar c ++ r).drop (Utf8.encodeChar c).length = r := List.drop_left
    have hplain :=
      Json.plain_of_encodeChar hc hq he (hbs ▸ List.mem_cons_self : b ∈ Utf8.encodeChar c)
    rw [hbs, List.cons_append] at hfirst hdrop ⊢
    rw [unquoteChar.eq_def]
    simp only
    rw [if_neg hplain.1, if_pos hb, hfirst]
    simp only
    rw [hbs, hdrop, decide_eq_true (Nat.not_lt.mp hlt)]

/-- Go reads a common character, and writes its encoding. -/
theorem CommonChar.unquote (h : CommonChar t c) (r : Bytes) :
    ∃ multibyte, unquoteChar (t ++ r) = some (c, multibyte, r) ∧
      (if c.toNat < 0x80 ∨ multibyte = false then [UInt8.ofNat c.toNat] else Utf8.encodeChar c) =
        Utf8.encodeChar c := by
  have hwrite : ∀ multibyte : Bool, (c.toNat < 0x80 ∨ multibyte = true) →
      (if c.toNat < 0x80 ∨ multibyte = false then [UInt8.ofNat c.toNat] else Utf8.encodeChar c) =
        Utf8.encodeChar c := by
    intro multibyte hm
    by_cases hlt : c.toNat < 0x80
    · rw [if_pos (.inl hlt), Utf8.encodeChar_of_lt hlt]
    · rw [if_neg]
      rintro (h | h)
      · exact hlt h
      · rw [h] at hm
        simp [hlt] at hm
  cases h with
  | unescaped hc hq he =>
    refine ⟨_, unquoteChar_unescaped hc hq he r, hwrite _ ?_⟩
    by_cases hlt : c.toNat < 0x80
    · exact .inl hlt
    · exact .inr (decide_eq_true (Nat.not_lt.mp hlt))
  | @escaped b n hb hne =>
    obtain ⟨hlook, hn⟩ := lookup_common hb hne
    refine ⟨false, ?_, hwrite _ (.inl ?_)⟩
    · rw [List.cons_append, List.singleton_append, unquoteChar_escape, hlook]
    · rw [toNat_ofNat (.inl (by omega))]
      exact hn
  | unicode hlen hn hv =>
    refine ⟨true, ?_, hwrite _ (.inr rfl)⟩
    rw [List.cons_append, List.cons_append, unquoteChar_unicode hlen hn, if_pos hv]

/-- Of the characters of JSON, Go reads only the common ones. -/
theorem common_of_unquote (h : Json.IsChar t n) {r : Bytes} (hgo : unquoteChar (t ++ r) ≠ none) :
    ∃ c, CommonChar t c := by
  cases h with
  | unescaped hc hq he => exact ⟨_, .unescaped hc hq he⟩
  | @escaped b n hb =>
    refine ⟨_, .escaped hb ?_⟩
    rintro rfl
    exact hgo rfl
  | @unicode ds n hlen hn =>
    refine ⟨_, .unicode hlen hn ?_⟩
    by_contra hv
    exact hgo (by rw [List.cons_append, List.cons_append, unquoteChar_unicode hlen hn, if_neg hv])

theorem isChar_head (h : Json.IsChar t n) :
    ∃ c t', t = c :: t' ∧ c ≠ quotationMark ∧ c ≠ 0x0A := by
  cases h with
  | @unescaped c hc hq he =>
    obtain ⟨b, bs, hbs⟩ := List.exists_cons_of_ne_nil (Utf8.encodeChar_ne_nil c)
    have hplain :=
      Json.plain_of_encodeChar hc hq he (hbs ▸ List.mem_cons_self : b ∈ Utf8.encodeChar c)
    refine ⟨b, bs, hbs, hplain.1, ?_⟩
    rintro rfl
    exact absurd hplain.2.2 (by decide)
  | escaped _ => exact ⟨_, _, rfl, by decide, by decide⟩
  | unicode _ _ => exact ⟨_, _, rfl, by decide, by decide⟩

theorem unquoteLoop_step {fuel : ℕ} {t b : Bytes} (h : Json.IsChar t n) :
    unquoteLoop (fuel + 1) (t ++ (b ++ [quotationMark])) =
      (unquoteChar (t ++ (b ++ [quotationMark]))).bind fun r =>
        (unquoteLoop fuel r.2.2).map fun out =>
          (if r.1.toNat < 0x80 ∨ r.2.1 = false then [UInt8.ofNat r.1.toNat]
            else Utf8.encodeChar r.1) ++ out := by
  obtain ⟨c, t', rfl, hq, hn⟩ := isChar_head h
  rw [List.cons_append, unquoteLoop, if_neg hq, if_neg hn]

theorem CommonString.unquoteLoop {b : Bytes} (h : CommonString b cs) :
    ∀ fuel, b.length + 1 ≤ fuel → unquoteLoop fuel (b ++ [quotationMark]) =
      some (Utf8.encode cs) := by
  induction h with
  | nil =>
    intro fuel hfuel
    obtain ⟨fuel, rfl⟩ := Nat.exists_eq_succ_of_ne_zero (show fuel ≠ 0 by omega)
    rfl
  | @cons t b c cs hc _ ih =>
    intro fuel hfuel
    obtain ⟨fuel, rfl⟩ := Nat.exists_eq_succ_of_ne_zero (show fuel ≠ 0 by omega)
    have hpos := List.length_pos_of_ne_nil hc.isChar.ne_nil
    rw [List.length_append] at hfuel
    obtain ⟨multibyte, hread, hwrite⟩ := hc.unquote (b ++ [quotationMark])
    rw [List.append_assoc, unquoteLoop_step hc.isChar, hread, Option.bind_some, ih fuel (by omega),
      Option.map_some]
    simp only [hwrite, Utf8.encode_cons]

theorem CommonString.eq_encode {b : Bytes} (h : CommonString b cs) (hb : escape ∉ b) :
    b = Utf8.encode cs := by
  induction h with
  | nil => rfl
  | cons hc _ ih =>
    rw [List.mem_append, not_or] at hb
    cases hc with
    | unescaped _ _ _ => rw [Utf8.encode_cons, ← ih hb.2]
    | escaped _ _ => exact absurd List.mem_cons_self hb.1
    | unicode _ _ _ => exact absurd List.mem_cons_self hb.1

theorem CommonString.goString {b : Bytes} (h : CommonString b cs) :
    goString b = some (Utf8.encode cs) := by
  rw [Strconv.goString]
  by_cases hb : escape ∈ b
  · rw [if_pos hb, quoted, unquote, if_pos rfl, h.unquoteLoop _ (by simp)]
  · rw [if_neg hb, ← h.eq_encode hb]

theorem Common.rfc {b : Bytes} (h : Common b) : Json.Rfc b := by
  obtain ⟨cs, hcs⟩ := h
  exact ⟨_, hcs.isString⟩

theorem common_of_loop {b : Bytes} {ns : List ℕ} (h : Json.IsString b ns) :
    ∀ fuel, unquoteLoop fuel (b ++ [quotationMark]) ≠ none → Common b := by
  induction h with
  | nil => exact fun _ _ => ⟨[], .nil⟩
  | @cons t b n ns ht _ ih =>
    intro fuel hgo
    cases fuel with
    | zero =>
      obtain ⟨c, t', rfl, -⟩ := isChar_head ht
      exact absurd rfl hgo
    | succ fuel =>
      rw [List.append_assoc, unquoteLoop_step ht] at hgo
      have hread : unquoteChar (t ++ (b ++ [quotationMark])) ≠ none :=
        fun hnone => hgo (by rw [hnone]; rfl)
      obtain ⟨c, hc⟩ := common_of_unquote ht hread
      obtain ⟨multibyte, hr, -⟩ := hc.unquote (b ++ [quotationMark])
      rw [hr] at hgo
      obtain ⟨cs, hcs⟩ := ih fuel fun hnone => hgo (by simp [hnone])
      exact ⟨c :: cs, .cons hc hcs⟩

theorem common_of_plain {b : Bytes} {ns : List ℕ} (h : Json.IsString b ns) (hb : escape ∉ b) :
    Common b := by
  induction h with
  | nil => exact ⟨[], .nil⟩
  | cons ht _ ih =>
    rw [List.mem_append, not_or] at hb
    obtain ⟨cs, hcs⟩ := ih hb.2
    cases ht with
    | unescaped hc hq he => exact ⟨_, .cons (.unescaped hc hq he) hcs⟩
    | escaped _ => exact absurd List.mem_cons_self hb.1
    | unicode _ _ => exact absurd List.mem_cons_self hb.1

theorem common_iff {b : Bytes} : Common b ↔ Json.Rfc b ∧ (goString b).isSome = true := by
  refine ⟨fun h => ⟨h.rfc, ?_⟩, ?_⟩
  · obtain ⟨cs, hcs⟩ := h
    rw [hcs.goString]
    rfl
  · rintro ⟨⟨ns, hns⟩, hgo⟩
    by_cases hb : escape ∈ b
    · rw [goString, if_pos hb, quoted, unquote, if_pos rfl] at hgo
      exact common_of_loop hns _ (Option.isSome_iff_ne_none.mp hgo)
    · exact common_of_plain hns hb

end

end Foundation.Strconv
