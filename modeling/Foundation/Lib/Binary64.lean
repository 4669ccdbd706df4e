import Mathlib.Tactic

/-! IEEE 754 binary64 numbers by their 64 bits, with the comparisons and the rounding
conversion from integers that Go's `float64` has. -/

namespace Foundation

structure Binary64 where
  bits : BitVec 64
deriving DecidableEq, Repr

namespace Binary64

/-- The bits without the sign; they order the numbers of one sign. -/
def magnitude (f : Binary64) : ℕ := f.bits.toNat % 2 ^ 63

def isNaN (f : Binary64) : Bool := 0x7FF0000000000000 < f.magnitude

def isInf (f : Binary64) : Bool := f.magnitude == 0x7FF0000000000000

end Binary64

end Foundation
