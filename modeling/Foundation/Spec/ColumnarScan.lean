import Foundation.Lib.BitScan
import Foundation.Lib.ByteRegion

/-! The scans for delimiters, byte by byte and eight bytes at a time (`columnar_scan.go`). -/

namespace Foundation.Hermes

def swarZeroPattern : UInt64 := 0x0101010101010101

def swarHighPattern : UInt64 := 0x8080808080808080

def trailingZeros64 (x : UInt64) : ℕ := PackedBits.lowestBit x.toBitVec

def littleEndianUint64 (b : List UInt8) : UInt64 := UInt64.ofNat (leNat b)

def scanBytes (p : UInt8 → Bool) (i : ℕ) : List UInt8 → ℤ
  | [] => -1
  | c :: rest => if p c then i else scanBytes p (i + 1) rest

/-- The word loop from index `i` on, and the byte loop over what is left. -/
def scanWords (marks : UInt64 → UInt64) (p : UInt8 → Bool) (i : ℕ) (s : List UInt8) : ℤ :=
  if 8 ≤ s.length then
    if marks (littleEndianUint64 (s.take 8)) ≠ 0 then
      (i + trailingZeros64 (marks (littleEndianUint64 (s.take 8))) >>> 3 : ℕ)
    else scanWords marks p (i + 8) (s.drop 8)
  else scanBytes p i s
termination_by s.length

/-- The high bits that the test for one target leaves. -/
def hasByte (target : UInt8) (word : UInt64) : UInt64 :=
  let v := word ^^^ target.toUInt64 * swarZeroPattern
  (v - swarZeroPattern) &&& ~~~v &&& swarHighPattern

def scanByteScalar (s : List UInt8) (target : UInt8) : ℤ := scanBytes (· == target) 0 s

def scanDelimiter2Scalar (s : List UInt8) (b1 b2 : UInt8) : ℤ :=
  scanBytes (fun c => c == b1 || c == b2) 0 s

def scanDelimiter4Scalar (s : List UInt8) (b1 b2 b3 b4 : UInt8) : ℤ :=
  scanBytes (fun c => c == b1 || c == b2 || c == b3 || c == b4) 0 s

def scanByteSWAR (s : List UInt8) (target : UInt8) : ℤ :=
  if s.length < 8 then scanByteScalar s target else scanWords (hasByte target) (· == target) 0 s

def scanDelimiter2SWAR (s : List UInt8) (b1 b2 : UInt8) : ℤ :=
  if s.length < 8 then scanDelimiter2Scalar s b1 b2
  else scanWords (fun word => hasByte b1 word ||| hasByte b2 word) (fun c => c == b1 || c == b2) 0 s

def scanDelimiter4SWAR (s : List UInt8) (b1 b2 b3 b4 : UInt8) : ℤ :=
  if s.length < 8 then scanDelimiter4Scalar s b1 b2 b3 b4
  else scanWords (fun word => hasByte b1 word ||| hasByte b2 word ||| hasByte b3 word |||
    hasByte b4 word)
    (fun c => c == b1 || c == b2 || c == b3 || c == b4) 0 s

end Foundation.Hermes
