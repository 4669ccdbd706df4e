import Foundation.Lib.EscapedJoin
import Foundation.Lib.Utf8
import Foundation.Sanity.TrimBytes

/-! The keys of records as the bytes they are (`hermes/helpers.go`): a component may hold any bytes,
the separator and the escape among them, and the key still tells the four trimmed components. -/

namespace Foundation.RecordKeyBytes

open EscapedJoin

def keySeparator : UInt8 := 0x7C
def keyEscape : UInt8 := 0x5C
def keyEscapeToken : Bytes := [0x5C, 0x5C]
def keySeparatorToken : Bytes := [0x5C, 0x7C]

def hasKeySeparator (value : Bytes) : Bool := value.any fun c => c == keySeparator || c == keyEscape

def escapeByte (c : UInt8) : Bytes :=
  if c = keyEscape then keyEscapeToken else if c = keySeparator then keySeparatorToken else [c]

def escapeKeyComponent (value : Bytes) : Bytes :=
  let value := trimBytes value
  if hasKeySeparator value then value.flatMap escapeByte else value

def recordKeyFromEscaped (domain collection organizationID recordID : Bytes) : Bytes :=
  domain ++ [0x7C] ++ collection ++ [0x7C] ++ organizationID ++ [0x7C] ++ recordID

/-- What `recordKey` makes of each of its arguments. -/
def keyComponent (value : Bytes) : Bytes :=
  let value := trimBytes value
  if hasKeySeparator value then escapeKeyComponent value else value

def recordKey (domain collection organizationID recordID : Bytes) : Bytes :=
  recordKeyFromEscaped (keyComponent domain) (keyComponent collection) (keyComponent organizationID)
    (keyComponent recordID)

/-- Whether or not a component is scanned clean, its escaped form stands in the key. -/
theorem keyComponent_eq (value : Bytes) :
    keyComponent value = escape keySeparator keyEscape (trimBytes value) := by
  unfold keyComponent escapeKeyComponent
  dsimp only
  rw [trimBytes_trimBytes]
  split_ifs with h
  · rfl
  · refine (escape_of_clean fun c hc => ?_).symm
    rw [hasKeySeparator, List.any_eq_true] at h
    simpa [not_or] using fun hcase => h ⟨c, hc, hcase⟩

theorem recordKey_eq (d c o r : Bytes) : recordKey d c o r =
    escape keySeparator keyEscape (trimBytes d) ++ keySeparator ::
      (escape keySeparator keyEscape (trimBytes c) ++
      keySeparator :: (escape keySeparator keyEscape (trimBytes o) ++
        keySeparator :: escape keySeparator keyEscape (trimBytes r))) := by
  simp only [recordKey, recordKeyFromEscaped, keyComponent_eq, List.append_assoc,
    List.singleton_append]
  rfl

/-- Equal keys come from equal trimmed components. -/
theorem recordKey_injective {d c o r d' c' o' r' : Bytes}
    (h : recordKey d c o r = recordKey d' c' o' r') :
    trimBytes d = trimBytes d' ∧ trimBytes c = trimBytes c' ∧ trimBytes o = trimBytes o' ∧
      trimBytes r = trimBytes r' := by
  have hne : keySeparator ≠ keyEscape := by decide
  rw [recordKey_eq, recordKey_eq] at h
  obtain ⟨hd, h⟩ := escape_sep_inj hne h
  obtain ⟨hc, h⟩ := escape_sep_inj hne h
  obtain ⟨ho, h⟩ := escape_sep_inj hne h
  exact ⟨hd, hc, ho, escape_inj hne h⟩

/-- A padded key with a separator in a component: the organization's name and the record's are told
apart. -/
theorem padded_key_components :
    recordKey [0x20, 0x61] [0x62] [0x63, 0x7C] [0x64] = recordKey [0x61] [0x62, 0x0A] [0x63,
      0x7C] [0x64] ∧
    trimBytes [0x20, 0x61] = trimBytes [0x61] ∧ trimBytes [0x62] = trimBytes [0x62, 0x0A] := by
  have hkeys : recordKey [0x20, 0x61] [0x62] [0x63, 0x7C] [0x64] = recordKey [0x61] [0x62,
      0x0A] [0x63, 0x7C] [0x64] := by
    decide +kernel
  obtain ⟨hd, hc, -, -⟩ := recordKey_injective hkeys
  exact ⟨hkeys, hd, hc⟩

end Foundation.RecordKeyBytes
