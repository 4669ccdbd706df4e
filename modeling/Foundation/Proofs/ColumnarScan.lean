import Foundation.Lib.Swar
import Foundation.Spec.ColumnarScan

/-! The word scans find what the byte scans find: the tests for several targets mark together the
first byte that is any of them. -/

namespace Foundation.Hermes

open Swar

variable {p q : UInt8 → Bool} {marks marks' : UInt64 → UInt64}

theorem scanBytes_eq (p : UInt8 → Bool) (i : ℕ) (s : List UInt8) :
    scanBytes p i s = ((s.findIdx? p).map fun j => ((i + j : ℕ) : ℤ)).getD (-1) := by
  induction s generalizing i with
  | nil => rfl
  | cons c rest ih =>
    rw [scanBytes, List.findIdx?_cons]
    split_ifs
    · rfl
    · rw [ih, Option.map_map]
      congr 2
      funext j
      simp only [Function.comp_apply]
      congr 1
      omega

/-- What the word loop needs of a test: in every word it marks the first byte that meets `p`. -/
def Tests (marks : UInt64 → UInt64) (p : UInt8 → Bool) : Prop :=
  ∀ b : List UInt8, b.length = 8 → Marks p b (marks (littleEndianUint64 b)).toNat

theorem tests_hasByte (target : UInt8) : Tests (hasByte target) (· == target) := by
  intro b hb
  have hword : (littleEndianUint64 b).toNat = leNat b := by
    have hlt := leNat_lt b
    rw [hb] at hlt
    rw [littleEndianUint64, UInt64.toNat_ofNat']
    exact Nat.mod_eq_of_lt (hlt.trans_eq (by norm_num))
  have hmask : (target.toUInt64 * swarZeroPattern).toNat = target.toNat * ones 8 := by
    have hlt := target.toNat_lt
    rw [UInt64.toNat_mul, UInt8.toNat_toUInt64,
      show swarZeroPattern.toNat = 72340172838076673 from rfl,
      show ones 8 = 72340172838076673 from rfl]
    omega
  have hmarks := marks_byte target b
  rw [hb, zeroBytes, ← hmask, ← hword, ← UInt64.toNat_xor] at hmarks
  rw [hasByte]
  simp only [UInt64.toNat_and, UInt64.toNat_sub, UInt64.toNat_not]
  exact hmarks

theorem Tests.or (h : Tests marks p) (h' : Tests marks' q) :
    Tests (fun word => marks word ||| marks' word) fun c => p c || q c := by
  intro b hb
  rw [UInt64.toNat_or]
  exact (h b hb).or (h' b hb)

theorem Tests.word (h : Tests marks p) {b : List UInt8} (hb : b.length = 8) :
    (marks (littleEndianUint64 b) = 0 ∧ b.findIdx? p = none) ∨
      marks (littleEndianUint64 b) ≠ 0 ∧
        b.findIdx? p = some (trailingZeros64 (marks (littleEndianUint64 b)) >>> 3) := by
  have hmarks := h b hb
  cases hj : b.findIdx? p with
  | none => exact .inl ⟨UInt64.toNat_inj.mp (hmarks.eq_zero hj), rfl⟩
  | some j =>
    obtain ⟨hset, hclear⟩ := hmarks.lowest hj
    obtain ⟨hlt, -, -⟩ := List.findIdx?_eq_some_iff_getElem.mp hj
    refine .inr ⟨fun hzero => ?_, ?_⟩
    · rw [hzero] at hset
      simp at hset
    · have hlowest : trailingZeros64 _ = _ := PackedBits.lowestBit_eq hset hclear
      rw [hlowest, Nat.shiftRight_eq_div_pow]
      congr 1
      omega

theorem Tests.scanWords (h : Tests marks p) (i : ℕ) (s : List UInt8) :
    scanWords marks p i s = scanBytes p i s := by
  induction hn : s.length using Nat.strong_induction_on generalizing i s with
  | _ n ih =>
    rw [Hermes.scanWords]
    split_ifs with hlong hmark
    · rcases h.word (b := s.take 8) (by simp [hlong]) with ⟨hzero, -⟩ | ⟨-, hfound⟩
      · exact absurd hzero hmark
      · rw [scanBytes_eq, ← List.take_append_drop 8 s, List.findIdx?_append, hfound]
        simp
    · rcases h.word (b := s.take 8) (by simp [hlong]) with ⟨-, hnone⟩ | ⟨hne, -⟩
      · rw [ih (s.drop 8).length (by simp; omega) (i + 8) (s.drop 8) rfl, scanBytes_eq,
          scanBytes_eq]
        conv_rhs => rw [← List.take_append_drop 8 s, List.findIdx?_append, hnone]
        simp only [Option.none_or, Option.map_map, List.length_take, Nat.min_eq_left hlong]
        congr 2
        funext j
        simp only [Function.comp_apply]
        congr 1
        omega
      · exact absurd hne hmark
    · rfl

theorem swar_scans_agree (s : List UInt8) :
    (∀ target, scanByteSWAR s target = scanByteScalar s target) ∧
    (∀ b1 b2, scanDelimiter2SWAR s b1 b2 = scanDelimiter2Scalar s b1 b2) ∧
    ∀ b1 b2 b3 b4, scanDelimiter4SWAR s b1 b2 b3 b4 = scanDelimiter4Scalar s b1 b2 b3 b4 := by
  refine ⟨fun target => ?_, fun b1 b2 => ?_, fun b1 b2 b3 b4 => ?_⟩
  · rw [scanByteSWAR, (tests_hasByte target).scanWords 0 s]
    exact ite_self _
  · have htests := (tests_hasByte b1).or (tests_hasByte b2)
    rw [scanDelimiter2SWAR, htests.scanWords 0 s]
    exact ite_self _
  · have htests :=
      (((tests_hasByte b1).or (tests_hasByte b2)).or (tests_hasByte b3)).or (tests_hasByte b4)
    rw [scanDelimiter4SWAR, htests.scanWords 0 s]
    exact ite_self _

end Foundation.Hermes
