import Foundation.Lib.EscapedJoin
import Foundation.Spec.StateStore

/-! Record keys determine the trimmed identity they were built from, and normalized
records are keyed by the identity the caller gave. -/

namespace Foundation.Hermes

open Go EscapedJoin

theorem keyComponent_toList (value : String) :
    (keyComponent value).toList = escape '|' '\\' (trimSpace value).toList := by
  unfold keyComponent escapeKeyComponent
  simp only [trimSpace_trimSpace]
  split_ifs with h
  · rw [String.toList_ofList]
    rfl
  · refine (escape_of_clean fun c hc => ?_).symm
    rw [hasKeySeparator, List.any_eq_true] at h
    simpa [not_or] using fun hcase => h ⟨c, hc, hcase⟩

theorem recordKey_toList (d c o i : String) :
    (recordKey d c o i).toList =
      escape '|' '\\' (trimSpace d).toList ++ '|' :: (escape '|' '\\' (trimSpace c).toList ++ '|' ::
        (escape '|' '\\' (trimSpace o).toList ++ '|' :: escape '|' '\\' (trimSpace i).toList)) := by
  simp [recordKey, recordKeyFromEscaped, keyComponent_toList]

theorem recordKey_inj {d c o i d' c' o' i' : String}
    (h : recordKey d c o i = recordKey d' c' o' i') :
    recordIdentity d c o i = recordIdentity d' c' o' i' := by
  have hne : '|' ≠ '\\' := by decide
  have hl := congrArg String.toList h
  rw [recordKey_toList, recordKey_toList] at hl
  obtain ⟨hd, hl⟩ := escape_sep_inj hne hl
  obtain ⟨hc, hl⟩ := escape_sep_inj hne hl
  obtain ⟨ho, hl⟩ := escape_sep_inj hne hl
  simp only [recordIdentity, RecordIdentity.mk.injEq]
  exact ⟨String.toList_inj.mp hd, String.toList_inj.mp hc, String.toList_inj.mp ho,
    String.toList_inj.mp (escape_inj hne hl)⟩

theorem recordKey_congr {d c o i d' c' o' i' : String}
    (h : recordIdentity d c o i = recordIdentity d' c' o' i') :
    recordKey d c o i = recordKey d' c' o' i' := by
  simp only [recordIdentity, RecordIdentity.mk.injEq] at h
  rw [← String.toList_inj, recordKey_toList, recordKey_toList, h.1, h.2.1, h.2.2.1, h.2.2.2]

theorem keyOf_eq_iff (a b : DomainRecord) : keyOf a = keyOf b ↔ identityOf a = identityOf b :=
  ⟨recordKey_inj, recordKey_congr⟩

end Foundation.Hermes
