import Mathlib.Tactic
import Mathlib.Algebra.Group.Nat.Defs
import Mathlib.Algebra.Group.Int.Defs

/-! Splitting an amount of money by ratios (`money/money.go`). In `Allocate` and `AllocateWide`
every party gets its truncated share, and the units left over go to the largest remainders. -/

namespace Foundation.MoneyAllocation

structure Currency where
  code : String
  exponent : ℤ
deriving DecidableEq, Repr

structure Money where
  amount : Int64
  currency : Currency
deriving DecidableEq

inductive Failure where
  | error (text : String)
  | panic
deriving DecidableEq, Repr

def sumRatiosFrom (totalRatio : Int64) : List Int64 → Except Failure Int64
  | [] =>
    if totalRatio = 0 then .error (.error "sum of allocation ratios must be greater than zero")
    else .ok totalRatio
  | r :: rest =>
    if r < 0 then .error (.error "allocation ratios must be non-negative")
    else if totalRatio + r < totalRatio then .error (.error "allocation ratio sum overflow")
    else sumRatiosFrom (totalRatio + r) rest

def sumRatios (ratios : List Int64) : Except Failure Int64 :=
  if ratios.isEmpty then .error (.error "cannot allocate to zero ratios")
  else sumRatiosFrom 0 ratios

def absUint64 (v : Int64) : UInt64 × Bool :=
  if v < 0 then ((~~~v).toUInt64 + 1, true) else (v.toUInt64, false)

def mul64 (x y : UInt64) : UInt64 × UInt64 :=
  (UInt64.ofNat (x.toNat * y.toNat / 2 ^ 64), UInt64.ofNat (x.toNat * y.toNat % 2 ^ 64))

/-- `bits.Div64`: quotient and remainder. It panics unless `hi < y`. -/
def div64 (hi lo y : UInt64) : Except Failure (UInt64 × UInt64) :=
  if y ≤ hi then .error .panic
  else .ok (UInt64.ofNat ((hi.toNat * 2 ^ 64 + lo.toNat) / y.toNat),
    UInt64.ofNat ((hi.toNat * 2 ^ 64 + lo.toNat) % y.toNat))

/-! ### The leftover units -/

/-- The inner loop: the index and value of the first largest remainder. -/
def bestFrom (i bestIdx : ℕ) (bestRem : Int64) : List Int64 → ℕ
  | [] => bestIdx
  | rem :: rest =>
    if bestRem < rem then bestFrom (i + 1) i rem rest else bestFrom (i + 1) bestIdx bestRem rest

def best (remainders : List Int64) : ℕ := bestFrom 0 0 (-1) remainders

def give (step : Int64) : ℕ → List Money → List Int64 → List Money
  | 0, shares, _ => shares
  | k + 1, shares, remainders =>
    give step k (shares.modify (best remainders) fun m => { m with amount := m.amount + step })
      (remainders.set (best remainders) (-1))

def distributeLeftover (shares : List Money) (remainders : List Int64) (leftover : Int64) :
    List Money :=
  if leftover = 0 then shares
  else
    let step : Int64 := if leftover < 0 then -1 else 1
    let count := if leftover < 0 then -leftover else leftover
    give step count.toInt.toNat shares remainders

/-! ### The two allocations -/

/-- The loop over the ratios: each has its share and remainder computed by `part`. -/
def partLoop (part : Int64 → Except Failure (Int64 × Int64)) (currency : Currency) :
    List Int64 → List Money → List Int64 → Int64 → Except Failure (List Money × List Int64 × Int64)
  | [], shares, remainders, allocatedAmount => .ok (shares, remainders, allocatedAmount)
  | r :: rest, shares, remainders, allocatedAmount => do
    let (share, rem) ← part r
    partLoop part currency rest (shares ++ [⟨share, currency⟩]) (remainders ++ [rem])
      (allocatedAmount + share)

def allocateBy (part : Int64 → Int64 → Except Failure (Int64 × Int64)) (m : Money)
    (ratios : List Int64) :
    Except Failure (List Money) := do
  let totalRatio ← sumRatios ratios
  let (shares, remainders, allocatedAmount) ← partLoop (part totalRatio) m.currency ratios [] [] 0
  return distributeLeftover shares remainders (m.amount - allocatedAmount)

def minInt64 : Int64 := -9223372036854775808

/-- The product is computed in 64 bits and tested by dividing back. -/
def narrowPart (amount totalRatio r : Int64) : Except Failure (Int64 × Int64) :=
  if amount = minInt64 ∧ r = -1 ∨ r = minInt64 ∧ amount = -1 then
    .error (.error "allocation multiplication overflow")
  else
    let prod := amount * r
    if r ≠ 0 ∧ prod / r ≠ amount then .error (.error "allocation multiplication overflow")
    else
      let rem := prod % totalRatio
      .ok (prod / totalRatio, if rem < 0 then -rem else rem)

def Money.allocate (m : Money) (ratios : List Int64) : Except Failure (List Money) :=
  allocateBy (narrowPart m.amount) m ratios

def widePart (amount totalRatio r : Int64) : Except Failure (Int64 × Int64) := do
  let (absAmount, neg) := absUint64 amount
  let (hi, lo) := mul64 absAmount r.toUInt64
  let (q, rem) ← div64 hi lo totalRatio.toUInt64
  let share := q.toInt64
  return (if neg then -share else share, rem.toInt64)

def Money.allocateWide (m : Money) (ratios : List Int64) : Except Failure (List Money) :=
  allocateBy (widePart m.amount) m ratios

end Foundation.MoneyAllocation
