import Foundation.Lib.Strconv

/-! Go's quoting is undone by its unquoting, for every byte string: what is no character of UTF-8 is
escaped byte by byte. -/

namespace Foundation.Strconv

open Json (escape quotationMark hex? quoted)

def runeBytes (c : Char) (multibyte : Bool) : Bytes :=
  if c.toNat < 0x80 ∨ multibyte = false then [UInt8.ofNat c.toNat] else Utf8.encodeChar c

/-- A chunk of a quoted string that is read in one step and written back as `out`; a chunk without
an escape is what it stands for. -/
structure Quotes (t out : Bytes) : Prop where
  head : ∃ c t', t = c :: t' ∧ c ≠ quotationMark ∧ c ≠ 0x0A
  read : ∀ r, ∃ c multibyte, unquoteChar (t ++ r) = some (c, multibyte, r) ∧
    runeBytes c multibyte = out
  plain : escape ∉ t → t = out

theorem runeBytes_of_wide {c : Char} {multibyte : Bool} (h : c.toNat < 0x80 ∨ multibyte = true) :
    runeBytes c multibyte = Utf8.encodeChar c := by
  unfold runeBytes
  by_cases hlt : c.toNat < 0x80
  · rw [if_pos (.inl hlt), Utf8.encodeChar_of_lt hlt]
  · rw [if_neg]
    rintro (hc | hm)
    · exact hlt hc
    · rw [hm] at h
      simp [hlt] at h

theorem Quotes.escaped {e : UInt8} {ds out : Bytes}
    (h : ∀ r, ∃ c multibyte, unquoteChar (escape :: e :: (ds ++ r)) = some (c, multibyte, r) ∧
      runeBytes c multibyte = out) : Quotes (escape :: e :: ds) out where
  head := ⟨_, _, rfl, by decide, by decide⟩
  read := h
  plain hno := absurd List.mem_cons_self hno

theorem quotes_hex2 {n : ℕ} (hn : n < 256) :
    Quotes (escape :: 0x78 :: hexDigits 2 n) [UInt8.ofNat n] := by
  refine .escaped fun r => ⟨Char.ofNat n, false, ?_, ?_⟩
  · have hlen := length_hexDigits 2 n
    have hlt : ¬ (hexDigits 2 n ++ r).length < 2 := by rw [List.length_append]; omega
    rw [unquoteChar_escape]
    change (if (hexDigits 2 n ++ r).length < 2 then none
      else (hex? ((hexDigits 2 n ++ r).take 2)).map fun v => (Char.ofNat v, false,
        (hexDigits 2 n ++ r).drop 2)) = _
    rw [if_neg hlt, List.take_left' hlen, List.drop_left' hlen, hex?_hexDigits (by omega),
      Option.map_some]
  · rw [runeBytes, if_pos (.inr rfl), toNat_ofNat (.inl (by omega))]

theorem hexRune_hexDigits {width : ℕ} {c : Char} (h : c.toNat < 16 ^ width) (r : Bytes) :
    hexRune width (hexDigits width c.toNat ++ r) = some (c, true, r) := by
  have hlen := length_hexDigits width c.toNat
  have hlt : ¬ (hexDigits width c.toNat ++ r).length < width := by rw [List.length_append]; omega
  rw [hexRune, if_neg hlt, List.take_left' hlen, List.drop_left' hlen, hex?_hexDigits h,
    Option.bind_some,
    if_pos (show c.toNat.isValidChar from c.valid)]
  exact congrArg (fun d => some (d, true, r)) (Char.ofNat_toNat c)

/-- Every rune is written as a chunk that reads back as its encoding. -/
theorem quotes_rune (p : Printable) (c : Char) :
    Quotes (appendEscapedRune p c) (Utf8.encodeChar c) := by
  rw [appendEscapedRune]
  by_cases hq : c = '"' ∨ c = '\\'
  · rw [if_pos hq]
    rcases hq with rfl | rfl <;> exact .escaped fun r => ⟨_, _, rfl, rfl⟩
  rw [if_neg hq]
  rw [not_or] at hq
  by_cases hp : p.isPrint c = true
  · rw [if_pos hp]
    have hle := le_of_isPrint hp
    obtain ⟨b, bs, hbs⟩ := List.exists_cons_of_ne_nil (Utf8.encodeChar_ne_nil c)
    have hplain :=
      Json.plain_of_encodeChar hle hq.1 hq.2 (hbs ▸ List.mem_cons_self : b ∈ Utf8.encodeChar c)
    refine ⟨⟨b, bs, hbs, hplain.1, ?_⟩, fun r => ⟨_, _, unquoteChar_unescaped hle hq.1 hq.2 r, ?_⟩,
      fun _ => rfl⟩
    · rintro rfl
      exact absurd hplain.2.2 (by decide)
    · refine runeBytes_of_wide ?_
      by_cases hlt : c.toNat < 0x80
      · exact .inl hlt
      · exact .inr (decide_eq_true (Nat.not_lt.mp hlt))
  rw [if_neg hp]
  cases he : controlEscapes.lookup c.toNat with
  | some e =>
    obtain ⟨l₁, l₂, hl, -⟩ := List.lookup_eq_some_iff.mp he
    have hmem : (c.toNat, e) ∈ controlEscapes := hl ▸ List.mem_append_right l₁ List.mem_cons_self
    simp only [controlEscapes, List.mem_cons, List.not_mem_nil, or_false, Prod.mk.injEq] at hmem
    have hc : c = Char.ofNat c.toNat := (Char.ofNat_toNat c).symm
    rcases hmem with ⟨hn, rfl⟩ | ⟨hn, rfl⟩ | ⟨hn, rfl⟩ | ⟨hn, rfl⟩ | ⟨hn, rfl⟩ | ⟨hn,
      rfl⟩ | ⟨hn, rfl⟩ <;>
      rw [hn] at hc <;> subst hc <;> exact .escaped fun r => ⟨_, _, rfl, rfl⟩
  | none =>
    simp only
    by_cases hx : c.toNat < 0x20 ∨ c.toNat = 0x7F
    · rw [if_pos hx, Utf8.encodeChar_of_lt (by omega)]
      exact quotes_hex2 (by omega)
    rw [if_neg hx]
    by_cases hw : c.toNat < 0x10000
    · rw [if_pos hw]
      refine .escaped fun r => ⟨c, true, ?_, runeBytes_of_wide (.inr rfl)⟩
      have hc : c.toNat < 16 ^ 4 := hw
      rw [unquoteChar_escape]
      exact hexRune_hexDigits hc r
    · rw [if_neg hw]
      refine .escaped fun r => ⟨c, true, ?_, runeBytes_of_wide (.inr rfl)⟩
      have hc : c.toNat < 16 ^ 8 := by
        have hvalid : c.toNat.isValidChar := c.valid
        unfold Nat.isValidChar at hvalid
        omega
      rw [unquoteChar_escape]
      exact hexRune_hexDigits hc r

/-- The quoted text of a byte string as chunks. -/
inductive Quoting : Bytes → Bytes → Prop
  | nil : Quoting [] []
  | cons {t out b s : Bytes} : Quotes t out → Quoting b s → Quoting (t ++ b) (out ++ s)

theorem quoteLoop_quoting (p : Printable) {fuel : ℕ} {s : Bytes} (h : s.length ≤ fuel) :
    Quoting (quoteLoop p fuel s) s := by
  induction fuel generalizing s with
  | zero =>
    obtain rfl : s = [] := List.eq_nil_of_length_eq_zero (by omega)
    exact .nil
  | succ fuel ih =>
    cases s with
    | nil => exact .nil
    | cons b s =>
      rw [List.length_cons] at h
      rw [quoteLoop]
      cases hf : Utf8.first? (b :: s) with
      | some c =>
        obtain ⟨rest, hrest⟩ := Utf8.first?_eq_some.mp hf
        have hpos := List.length_pos_of_ne_nil (Utf8.encodeChar_ne_nil c)
        have hlen := congrArg List.length hrest
        rw [List.length_append, List.length_cons] at hlen
        simp only
        rw [hrest, List.drop_left]
        exact .cons (quotes_rune p c) (ih (by omega))
      | none =>
        have hb := quotes_hex2 b.toNat_lt
        rw [UInt8.ofNat_toNat] at hb
        exact .cons hb (ih (by omega))

theorem Quoting.unquoteLoop {b s : Bytes} (h : Quoting b s) :
    ∀ fuel, b.length + 1 ≤ fuel → unquoteLoop fuel (b ++ [quotationMark]) = some s := by
  induction h with
  | nil =>
    intro fuel hfuel
    obtain ⟨fuel, rfl⟩ := Nat.exists_eq_succ_of_ne_zero (show fuel ≠ 0 by omega)
    rfl
  | @cons t out b s ht _ ih =>
    intro fuel hfuel
    obtain ⟨fuel, rfl⟩ := Nat.exists_eq_succ_of_ne_zero (show fuel ≠ 0 by omega)
    obtain ⟨c, t', rfl, hq, hn⟩ := ht.head
    obtain ⟨d, multibyte, hread, hwrite⟩ := ht.read (b ++ [quotationMark])
    rw [List.length_append, List.length_cons] at hfuel
    rw [List.append_assoc]
    rw [List.cons_append] at hread ⊢
    rw [Strconv.unquoteLoop, if_neg hq, if_neg hn, hread, Option.bind_some, ih fuel (by omega),
      Option.map_some]
    exact congrArg (fun x => some (x ++ s)) hwrite

theorem Quoting.plain {b s : Bytes} (h : Quoting b s) (hb : escape ∉ b) : b = s := by
  induction h with
  | nil => rfl
  | cons ht _ ih =>
    rw [List.mem_append, not_or] at hb
    rw [ht.plain hb.1, ih hb.2]

/-- A quoted byte string reads back as it was. -/
theorem goString_quoteBody (p : Printable) (s : Bytes) : goString (quoteBody p s) = some s := by
  have h : Quoting (quoteBody p s) s := quoteLoop_quoting p le_rfl
  rw [goString]
  by_cases hb : escape ∈ quoteBody p s
  · rw [if_pos hb, quoted, unquote, if_pos rfl, h.unquoteLoop _ (by simp)]
  · rw [if_neg hb, h.plain hb]

end Foundation.Strconv
