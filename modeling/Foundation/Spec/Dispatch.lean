import Mathlib.Algebra.Group.Nat.Defs
import Mathlib.Data.List.Basic

/-! Lane placement: the Go host (`runtimehost/dispatch.go`) and the Rust crate
(`ovrt-dispatch/src/decide.rs`). The two declare the same rows and share the eligibility
tests; they compute the expected latency each in its own arithmetic. -/

namespace Foundation.Dispatch

def maxLanes : ℕ := 32
def staleTicks : UInt64 := 4
def ewmaAlphaNum : ℕ := 1
def ewmaAlphaDen : ℕ := 8
def affinityBonusNs : UInt64 := 250000
def jurisdictionGlobal : UInt16 := 0
def maxUint64 : UInt64 := 0xFFFFFFFFFFFFFFFF

structure DispatchLaneDescriptor where
  unitClassMask : UInt64
  affinityBloom : UInt64
  laneId : UInt16
  jurisdiction : UInt16
  maxConcurrency : UInt32
  generation : UInt32
deriving DecidableEq, Repr

structure DispatchLaneStats where
  ewmaNs : UInt64
  inflight : UInt32
  maxConcurrency : UInt32
  lastTickSeen : UInt64
deriving DecidableEq, Repr

structure DispatchRequest where
  requiredClassMask : UInt64
  jurisdiction : UInt16
  deadlineNs : UInt64
  affinityKey : UInt64
deriving DecidableEq, Repr

namespace DispatchLaneDescriptor

def covers (d : DispatchLaneDescriptor) (requiredClassMask : UInt64) : Bool :=
  d.unitClassMask &&& requiredClassMask == requiredClassMask

def allowsJurisdiction (d : DispatchLaneDescriptor) (request : UInt16) : Bool :=
  d.jurisdiction == jurisdictionGlobal || d.jurisdiction == request

def holdsLocality (d : DispatchLaneDescriptor) (key : UInt64) : Bool :=
  (d.affinityBloom >>> (key % 64)) &&& 1 == 1

end DispatchLaneDescriptor

/-- The tick difference wraps, so a zero heartbeat is refused before it is compared. -/
def DispatchRequest.isFresh (now : UInt64) (stats : DispatchLaneStats) : Bool :=
  stats.lastTickSeen != 0 && now - stats.lastTickSeen ≤ staleTicks

/-- Both sides subtract the locality bonus without going below zero. -/
def saturatingSub (value delta : UInt64) : UInt64 :=
  if delta > value then 0 else value - delta

/-! ### Go -/

namespace Runtimehost

/-- `none` is the source's `(0, false)`. -/
def expectedLatencyNs (stats : DispatchLaneStats) (descriptor : DispatchLaneDescriptor) :
    Option UInt64 :=
  if stats.ewmaNs = 0 then none
  else
    let concurrency := max descriptor.maxConcurrency stats.maxConcurrency
    let concurrency := if concurrency = 0 then 1 else concurrency
    let factor := 1 + stats.inflight.toUInt64 / concurrency.toUInt64
    if factor ≠ 0 ∧ stats.ewmaNs > maxUint64 / factor then some maxUint64
    else some (stats.ewmaNs * factor)

/-- `bits.Mul64`: the high and the low word of the product. -/
def mul64 (x y : UInt64) : UInt64 × UInt64 :=
  (UInt64.ofNat (x.toNat * y.toNat / 2 ^ 64), UInt64.ofNat (x.toNat * y.toNat % 2 ^ 64))

def add64 (x y : UInt64) : UInt64 × UInt64 :=
  (x + y, UInt64.ofNat ((x.toNat + y.toNat) / 2 ^ 64))

/-- The quotient of `bits.Div64`, which panics unless `hi < y`. -/
def div64 (hi lo y : UInt64) : Option UInt64 :=
  if y ≤ hi then none else some (UInt64.ofNat ((hi.toNat * 2 ^ 64 + lo.toNat) / y.toNat))

/-- `none` would be a panic. -/
def blendEwma (previousNs sampleNs : UInt64) : Option UInt64 :=
  let alphaNum := UInt64.ofNat ewmaAlphaNum
  let alphaDen := UInt64.ofNat ewmaAlphaDen
  let (hi1, lo1) := mul64 alphaNum sampleNs
  let (hi2, lo2) := mul64 (alphaDen - alphaNum) previousNs
  let (lo, carry) := add64 lo1 lo2
  let hi := hi1 + hi2 + carry
  if hi ≥ alphaDen then some maxUint64 else div64 hi lo alphaDen

structure Best where
  bestScore : UInt64
  laneID : UInt16
  found : Bool

def consider (now : UInt64) (request : DispatchRequest) (best : Best)
    (lane : DispatchLaneDescriptor × DispatchLaneStats) : Best :=
  let (descriptor, laneStats) := lane
  if descriptor.unitClassMask = 0 then best
  else if !descriptor.covers request.requiredClassMask then best
  else if !descriptor.allowsJurisdiction request.jurisdiction then best
  else if !DispatchRequest.isFresh now laneStats then best
  else match expectedLatencyNs laneStats descriptor with
    | none => best
    | some expected =>
      let score :=
        if descriptor.holdsLocality request.affinityKey then saturatingSub expected affinityBonusNs
        else expected
      if score > request.deadlineNs then best
      else if !best.found || score < best.bestScore then ⟨score, descriptor.laneId, true⟩
      else best

def decide (now : UInt64) (descriptors : List DispatchLaneDescriptor)
    (stats : List DispatchLaneStats) (request : DispatchRequest) : UInt16 × Bool :=
  let count := min (min stats.length descriptors.length) maxLanes
  let best :=
    ((descriptors.zip stats).take count).foldl (consider now request) ⟨maxUint64, 0, false⟩
  (best.laneID, best.found)

end Runtimehost

/-! ### Rust -/

namespace OvrtDispatch

def saturatingMul128 (x y : ℕ) : ℕ := min (x * y) (2 ^ 128 - 1)

def expectedLatencyNs (stats : DispatchLaneStats) (descriptor : DispatchLaneDescriptor) :
    Option UInt64 :=
  if stats.ewmaNs = 0 then none
  else
    let concurrency := max stats.maxConcurrency descriptor.maxConcurrency
    let concurrency := if concurrency = 0 then 1 else concurrency
    let c := concurrency.toNat
    let num := saturatingMul128 stats.ewmaNs.toNat (c + stats.inflight.toNat)
    let expected := num / c
    some (UInt64.ofNat (min expected maxUint64.toNat))

/-- The `u128` products cannot overflow; the last cast keeps the low 64 bits. -/
def blendEwma (previousNs sampleNs : UInt64) : UInt64 :=
  let numerator := ewmaAlphaNum * sampleNs.toNat + (ewmaAlphaDen - ewmaAlphaNum) * previousNs.toNat
  UInt64.ofNat (numerator / ewmaAlphaDen)

/-- The tests one turn of either loop makes: the score of a lane that passes them all. -/
def laneScore (tickNow : UInt64) (request : DispatchRequest)
    (lane : DispatchLaneDescriptor × Option DispatchLaneStats) : Option UInt64 :=
  let (descriptor, stats) := lane
  match stats with
  | none => none
  | some laneStats =>
    if descriptor.unitClassMask = 0 then none
    else if !descriptor.covers request.requiredClassMask then none
    else if !descriptor.allowsJurisdiction request.jurisdiction then none
    else if !DispatchRequest.isFresh tickNow laneStats then none
    else match expectedLatencyNs laneStats descriptor with
      | none => none
      | some expected =>
        let score :=
          if descriptor.holdsLocality request.affinityKey then
            saturatingSub expected affinityBonusNs
          else expected
        if score > request.deadlineNs then none else some score

def consider (tickNow : UInt64) (request : DispatchRequest) (best : Option (UInt64 × UInt16))
    (lane : DispatchLaneDescriptor × Option DispatchLaneStats) : Option (UInt64 × UInt16) :=
  match laneScore tickNow request lane with
  | none => best
  | some score =>
    match best with
    | none => some (score, lane.1.laneId)
    | some (bestScore, laneId) =>
      if score < bestScore then some (score, lane.1.laneId) else some (bestScore, laneId)

def rows (descriptors : List DispatchLaneDescriptor) (stats : List (Option DispatchLaneStats)) :
    List (DispatchLaneDescriptor × Option DispatchLaneStats) :=
  (descriptors.zip stats).take (min (min descriptors.length maxLanes) stats.length)

def decide (tickNow : UInt64) (descriptors : List DispatchLaneDescriptor)
    (stats : List (Option DispatchLaneStats)) (request : DispatchRequest) : Option UInt16 :=
  ((rows descriptors stats).foldl (consider tickNow request) none).map Prod.snd

def rotateLeft (x : UInt64) (n : UInt64) : UInt64 := (x <<< n) ||| (x >>> (64 - n))

/-- SplitMix64 over the tick and the locality key. -/
def seed (tickNow affinityKey : UInt64) : UInt64 :=
  let z := tickNow + rotateLeft affinityKey 31 + 0x9E3779B97F4A7C15
  let z := (z ^^^ (z >>> 30)) * 0xBF58476D1CE4E5B9
  let z := (z ^^^ (z >>> 27)) * 0x94D049BB133111EB
  z ^^^ (z >>> 31)

/-- The two candidates a seed picks out of `count ≥ 2`. -/
def picks (z : UInt64) (count : ℕ) : ℕ × ℕ :=
  let first := z.toNat % count
  (first, (first + 1 + (z >>> 32).toNat % (count - 1)) % count)

/-- The candidates in table order; there are at most `maxLanes`, so the fixed array holds them. -/
def candidates (tickNow : UInt64) (descriptors : List DispatchLaneDescriptor)
    (stats : List (Option DispatchLaneStats)) (request : DispatchRequest) :
    List (UInt64 × UInt16) :=
  (rows descriptors stats).filterMap fun lane =>
    (laneScore tickNow request lane).map fun score => (score, lane.1.laneId)

/-- The only candidate, or the lower of the two the seed picks. -/
def sample (z : UInt64) : List (UInt64 × UInt16) → Option UInt16
  | [] => none
  | [c] => some c.2
  | c :: d :: rest =>
    let (first, second) := picks z (c :: d :: rest).length
    let (s1, id1) := (c :: d :: rest).getD first (0, 0)
    let (s2, id2) := (c :: d :: rest).getD second (0, 0)
    if s1 < s2 ∨ s1 = s2 ∧ id1 ≤ id2 then some id1 else some id2

def decidePowerOfTwo (tickNow : UInt64) (descriptors : List DispatchLaneDescriptor)
    (stats : List (Option DispatchLaneStats)) (request : DispatchRequest) : Option UInt16 :=
  sample (seed tickNow request.affinityKey) (candidates tickNow descriptors stats request)

end OvrtDispatch

end Foundation.Dispatch
