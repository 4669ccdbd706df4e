import Mathlib.Data.List.Basic
import Mathlib.Tactic

/-! UTF-8 over lists of bytes, on top of the encoder and decoder of the standard library. -/

namespace Foundation

abbrev Bytes := List UInt8

variable {c : Char}

namespace Utf8

/-- The encoding of one scalar value. -/
abbrev encodeChar (c : Char) : Bytes := String.utf8EncodeChar c

def encode (cs : List Char) : Bytes := cs.flatMap encodeChar

/-- The scalar value whose encoding the bytes begin with. -/
def first? (b : Bytes) : Option Char := b.toByteArray.utf8DecodeChar? 0

theorem first?_append (c : Char) (rest : Bytes) : first? (encodeChar c ++ rest) = some c := by
  rw [first?, List.toByteArray_append]
  exact ByteArray.utf8DecodeChar?_utf8EncodeChar_append

theorem first?_eq_some {b : Bytes} : first? b = some c ↔ ∃ rest, b = encodeChar c ++ rest := by
  constructor
  · intro h
    obtain ⟨l, hl⟩ := ByteArray.exists_of_utf8DecodeChar?_eq_some h
    refine ⟨l.data.toList, List.toByteArray_inj.mp ?_⟩
    rw [hl, List.toByteArray_append]
    congr 1
    exact ByteArray.ext (by rw [List.data_toByteArray, Array.toArray_toList])
  · rintro ⟨rest, rfl⟩
    exact first?_append c rest

theorem encodeChar_ne_nil (c : Char) : encodeChar c ≠ [] := by
  intro h
  have hlen := String.length_utf8EncodeChar c
  rw [show String.utf8EncodeChar c = [] from h] at hlen
  exact absurd c.utf8Size_pos (by rw [← hlen]; decide)

@[simp] theorem encode_nil : encode [] = [] := rfl

theorem encode_cons (c : Char) (cs : List Char) : encode (c :: cs) = encodeChar c ++ encode cs :=
  rfl

theorem encodeChar_of_lt (h : c.toNat < 0x80) : encodeChar c = [UInt8.ofNat c.toNat] := by
  rw [encodeChar, String.utf8EncodeChar]
  exact if_pos (show c.toNat ≤ 127 by omega)

theorem ofNat_ge {n : ℕ} (h : 0x80 ≤ n) (hn : n < 256) : (0x80 : UInt8) ≤ UInt8.ofNat n := by
  rw [UInt8.le_iff_toNat_le, UInt8.toNat_ofNat', Nat.mod_eq_of_lt hn]
  exact h

theorem le_of_mem_encodeChar (h : 0x80 ≤ c.toNat) {b : UInt8} (hb : b ∈ encodeChar c) :
    0x80 ≤ b := by
  rw [encodeChar, String.utf8EncodeChar] at hb
  have hn : ¬ c.toNat ≤ 127 := by omega
  simp only [show c.val.toNat = c.toNat from rfl, if_neg hn] at hb
  split_ifs at hb <;> simp only [List.mem_cons, List.not_mem_nil, or_false] at hb <;>
    rcases hb with rfl | rfl | rfl | rfl <;> exact ofNat_ge (by omega) (by omega)

end Utf8
end Foundation
