import Foundation.Lib.LeastFirst
import Foundation.Spec.Dispatch
import Mathlib.Tactic.Ring

/-! Where work is placed. Both loops settle on the first of the lowest-scored lanes they
accept. Go counts queue pressure in whole rounds, Rust exactly, so the two agree on tables
where both readings rank the lanes alike. -/

namespace Foundation.Dispatch

open LeastFirst

instance instLinearOrderUInt64 : LinearOrder UInt64 where
  le := (· ≤ ·)
  lt := (· < ·)
  le_refl _ := UInt64.le_refl _
  le_trans _ _ _ := UInt64.le_trans
  le_antisymm _ _ := UInt64.le_antisymm
  le_total := UInt64.le_total
  lt_iff_le_not_ge a b := by
    simp only [UInt64.le_iff_toNat_le, UInt64.lt_iff_toNat_lt]
    omega
  toDecidableLE := inferInstance
  toDecidableEq := inferInstance
  toDecidableLT := inferInstance
  min_def _ _ := rfl
  max_def _ _ := rfl

theorem toNat_strictMono : StrictMono UInt64.toNat := fun _ _ h => UInt64.lt_iff_toNat_lt.mp h

/-! ### Blending -/

theorem mul64_words (x y : UInt64) :
    (Runtimehost.mul64 x y).1.toNat * 2 ^ 64 + (Runtimehost.mul64 x y).2.toNat =
      x.toNat * y.toNat := by
  have hlt : x.toNat * y.toNat < 2 ^ 64 * 2 ^ 64 := Nat.mul_lt_mul'' x.toNat_lt y.toNat_lt
  simp only [Runtimehost.mul64, UInt64.toNat_ofNat']
  omega

theorem add64_words (x y : UInt64) :
    (Runtimehost.add64 x y).2.toNat * 2 ^ 64 + (Runtimehost.add64 x y).1.toNat = x.toNat +
      y.toNat := by
  have hx := x.toNat_lt
  have hy := y.toNat_lt
  simp only [Runtimehost.add64, UInt64.toNat_ofNat', UInt64.toNat_add]
  omega

theorem blendEwma_agree (previousNs sampleNs : UInt64) :
    Runtimehost.blendEwma previousNs sampleNs =
      some (OvrtDispatch.blendEwma previousNs sampleNs) := by
  have hp := UInt64.toNat_lt previousNs
  have hs := UInt64.toNat_lt sampleNs
  have hsample := mul64_words (UInt64.ofNat ewmaAlphaNum) sampleNs
  have hprevious := mul64_words (UInt64.ofNat ewmaAlphaDen - UInt64.ofNat ewmaAlphaNum) previousNs
  have hnum : (UInt64.ofNat ewmaAlphaNum).toNat = 1 := by decide
  have hrest : (UInt64.ofNat ewmaAlphaDen - UInt64.ofNat ewmaAlphaNum).toNat = 7 := by decide
  have hden : (UInt64.ofNat ewmaAlphaDen).toNat = 8 := by decide
  simp only [Runtimehost.blendEwma]
  generalize Runtimehost.mul64 (UInt64.ofNat ewmaAlphaNum) sampleNs = sample at hsample ⊢
  generalize Runtimehost.mul64 (UInt64.ofNat ewmaAlphaDen - UInt64.ofNat ewmaAlphaNum) previousNs =
    previous
    at hprevious ⊢
  obtain ⟨hi1, lo1⟩ := sample
  obtain ⟨hi2, lo2⟩ := previous
  have hsum := add64_words lo1 lo2
  dsimp only at hsample hprevious ⊢
  generalize Runtimehost.add64 lo1 lo2 = sum at hsum ⊢
  obtain ⟨lo, carry⟩ := sum
  dsimp only at hsum ⊢
  rw [hnum] at hsample
  rw [hrest] at hprevious
  have hlo := UInt64.toNat_lt lo
  have hhi : (hi1 + hi2 + carry).toNat = hi1.toNat + hi2.toNat + carry.toNat := by
    simp only [UInt64.toNat_add]
    omega
  have hlt : ¬ UInt64.ofNat ewmaAlphaDen ≤ hi1 + hi2 + carry := by
    rw [UInt64.le_iff_toNat_le, hden, hhi]
    omega
  have hwords : (hi1.toNat + hi2.toNat + carry.toNat) * 2 ^ 64 + lo.toNat =
      1 * sampleNs.toNat + 7 * previousNs.toNat := by
    rw [← hsample, ← hprevious, Nat.add_mul, Nat.add_mul, Nat.add_assoc, hsum]
    ring
  rw [if_neg hlt, Runtimehost.div64, if_neg hlt, hden, hhi, hwords]
  simp only [OvrtDispatch.blendEwma, ewmaAlphaNum, ewmaAlphaDen, Nat.reduceSub]

/-! ### Expected latency -/

abbrev Lane := DispatchLaneDescriptor × DispatchLaneStats

namespace Lane

/-- What the lane can run at once, at least one unit. -/
def slots (lane : Lane) : ℕ := max 1 (max lane.1.maxConcurrency.toNat lane.2.maxConcurrency.toNat)

/-- The mean, once more for every full round of queued work. -/
def wholeLatency (lane : Lane) : ℕ := lane.2.ewmaNs.toNat * (1 + lane.2.inflight.toNat / lane.slots)

/-- The mean stretched by the queued work, as a fraction of a round. -/
def exactLatency (lane : Lane) : ℕ :=
  lane.2.ewmaNs.toNat * (lane.slots + lane.2.inflight.toNat) / lane.slots

theorem slots_pos (lane : Lane) : 0 < lane.slots := by
  unfold slots
  omega

end Lane

theorem toNat_ofNat_min (n : ℕ) :
    (UInt64.ofNat (min n (2 ^ 64 - 1))).toNat = min n (2 ^ 64 - 1) := by
  rw [UInt64.toNat_ofNat', Nat.mod_eq_of_lt]
  omega

theorem toNat_max (a b : UInt32) : (max a b).toNat = max a.toNat b.toNat := by
  rw [show max a b = if a ≤ b then b else a from rfl]
  by_cases h : a ≤ b
  · rw [if_pos h, max_eq_right (UInt32.le_iff_toNat_le.mp h)]
  · rw [if_neg h, max_eq_left]
    rw [UInt32.le_iff_toNat_le] at h
    omega

theorem concurrency_toNat (a b : UInt32) :
    (if max a b = 0 then 1 else max a b).toNat = max 1 (max a.toNat b.toNat) := by
  have hmax := toNat_max a b
  by_cases h : max a b = 0
  · rw [if_pos h]
    rw [h] at hmax
    have hzero : max a.toNat b.toNat = 0 := hmax.symm
    rw [hzero]
    rfl
  · rw [if_neg h, hmax]
    have : (max a b).toNat ≠ 0 := fun hzero => h (UInt32.toNat_inj.mp hzero)
    omega

theorem runtimehost_expectedLatencyNs (lane : Lane) (h : lane.2.ewmaNs ≠ 0) :
    Runtimehost.expectedLatencyNs lane.2 lane.1 =
      some (UInt64.ofNat (min lane.wholeLatency (2 ^ 64 - 1))) := by
  have hewma := lane.2.ewmaNs.toNat_lt
  have hinflight := lane.2.inflight.toNat_lt
  have hslots := lane.slots_pos
  have hmax : maxUint64.toNat = 2 ^ 64 - 1 := by decide
  have hconc := concurrency_toNat lane.1.maxConcurrency lane.2.maxConcurrency
  simp only [Runtimehost.expectedLatencyNs, if_neg h]
  generalize (if max lane.1.maxConcurrency lane.2.maxConcurrency = 0 then 1
    else max lane.1.maxConcurrency lane.2.maxConcurrency) = concurrency at hconc ⊢
  generalize hfactor : 1 + lane.2.inflight.toUInt64 / concurrency.toUInt64 = factor
  have hrounds : lane.2.inflight.toNat / lane.slots ≤ lane.2.inflight.toNat := Nat.div_le_self _ _
  have hnat : factor.toNat = 1 + lane.2.inflight.toNat / lane.slots := by
    rw [← hfactor, UInt64.toNat_add, UInt64.toNat_div, UInt32.toNat_toUInt64,
      UInt32.toNat_toUInt64, hconc,
      UInt64.toNat_one]
    change (1 + lane.2.inflight.toNat / lane.slots) % 2 ^ 64 = _
    generalize lane.2.inflight.toNat / lane.slots = rounds at hrounds ⊢
    exact Nat.mod_eq_of_lt (by omega)
  have hpos : 0 < factor.toNat := hnat ▸ Nat.add_pos_left one_pos _
  have hne : factor ≠ 0 := fun hzero => absurd hpos (hzero ▸ Nat.lt_irrefl 0)
  have hwhole : lane.wholeLatency = lane.2.ewmaNs.toNat * factor.toNat := by
    rw [Lane.wholeLatency, hnat]
  have hfit : lane.2.ewmaNs > maxUint64 / factor ↔ 2 ^ 64 - 1 < lane.wholeLatency := by
    rw [gt_iff_lt, UInt64.lt_iff_toNat_lt, UInt64.toNat_div, hmax, hwhole,
      Nat.div_lt_iff_lt_mul hpos]
  by_cases hbig : 2 ^ 64 - 1 < lane.wholeLatency
  · rw [if_pos ⟨hne, hfit.mpr hbig⟩, min_eq_right hbig.le]
    rfl
  · rw [if_neg fun hc => hbig (hfit.mp hc.2), min_eq_left (not_lt.mp hbig)]
    congr 1
    apply UInt64.toNat_inj.mp
    rw [UInt64.toNat_mul, UInt64.toNat_ofNat', hwhole]

theorem ovrtDispatch_expectedLatencyNs (lane : Lane) (h : lane.2.ewmaNs ≠ 0) :
    OvrtDispatch.expectedLatencyNs lane.2 lane.1 =
      some (UInt64.ofNat (min lane.exactLatency (2 ^ 64 - 1))) := by
  have hewma := lane.2.ewmaNs.toNat_lt
  have hinflight := lane.2.inflight.toNat_lt
  have hconc : (if max lane.2.maxConcurrency lane.1.maxConcurrency = 0 then 1
      else max lane.2.maxConcurrency lane.1.maxConcurrency).toNat = lane.slots := by
    rw [concurrency_toNat, max_comm lane.2.maxConcurrency.toNat]
    rfl
  simp only [OvrtDispatch.expectedLatencyNs, if_neg h, hconc]
  have hslots : lane.slots < 2 ^ 32 := by
    have := lane.1.maxConcurrency.toNat_lt
    have := lane.2.maxConcurrency.toNat_lt
    unfold Lane.slots
    omega
  have hproduct : lane.2.ewmaNs.toNat * (lane.slots + lane.2.inflight.toNat) < 2 ^ 64 * 2 ^ 33 :=
    Nat.mul_lt_mul'' hewma (by omega)
  have hnum : OvrtDispatch.saturatingMul128 lane.2.ewmaNs.toNat (lane.slots + lane.2.inflight.toNat)
      = lane.2.ewmaNs.toNat * (lane.slots + lane.2.inflight.toNat) := min_eq_left (by omega)
  rw [hnum]
  rfl

/-! ### Scores -/

namespace Lane

/-- Passes every test but the deadline. -/
def Serves (now : UInt64) (request : DispatchRequest) (lane : Lane) : Prop :=
  lane.1.unitClassMask ≠ 0 ∧ lane.1.covers request.requiredClassMask = true ∧
    lane.1.allowsJurisdiction request.jurisdiction = true ∧
      DispatchRequest.isFresh now lane.2 = true ∧
    lane.2.ewmaNs ≠ 0

instance (now : UInt64) (request : DispatchRequest) (lane : Lane) :
  Decidable (lane.Serves now request) := by
  unfold Serves
  infer_instance

/-- The latency less the locality bonus, all within 64 bits. -/
def score (latency : Lane → ℕ) (request : DispatchRequest) (lane : Lane) : ℕ :=
  min (latency lane) (2 ^ 64 - 1) -
    if lane.1.holdsLocality request.affinityKey then affinityBonusNs.toNat else 0

/-- Serves, and meets the deadline with the bonus taken off. -/
def Admitted (latency : Lane → ℕ) (now : UInt64) (request : DispatchRequest) (lane : Lane) : Prop :=
  lane.Serves now request ∧ lane.score latency request ≤ request.deadlineNs.toNat

instance (latency : Lane → ℕ) (now : UInt64) (request : DispatchRequest) (lane : Lane) :
    Decidable (lane.Admitted latency now request) := by
  unfold Admitted
  infer_instance

def scored (latency : Lane → ℕ) (now : UInt64) (request : DispatchRequest) (lane : Lane) :
    Option ℕ :=
  if lane.Admitted latency now request then some (lane.score latency request) else none

end Lane

/-- The chain of tests in both loops, over the expected latency. -/
def gate (now : UInt64) (request : DispatchRequest) (lane : Lane) (expected : Option UInt64) :
    Option UInt64 :=
  if lane.1.unitClassMask = 0 then none
  else if !lane.1.covers request.requiredClassMask then none
  else if !lane.1.allowsJurisdiction request.jurisdiction then none
  else if !DispatchRequest.isFresh now lane.2 then none
  else match expected with
    | none => none
    | some expected =>
      let score :=
        if lane.1.holdsLocality request.affinityKey then saturatingSub expected affinityBonusNs
        else expected
      if score > request.deadlineNs then none else some score

theorem toNat_saturatingSub (value delta : UInt64) :
    (saturatingSub value delta).toNat = value.toNat - delta.toNat := by
  unfold saturatingSub
  by_cases h : delta > value
  · rw [if_pos h]
    rw [gt_iff_lt, UInt64.lt_iff_toNat_lt] at h
    rw [Nat.sub_eq_zero_of_le h.le]
    rfl
  · rw [if_neg h, UInt64.toNat_sub_of_le]
    exact not_lt.mp h

theorem gate_toNat {latency : Lane → ℕ} (now : UInt64) (request : DispatchRequest) (lane : Lane)
    {expected : Option UInt64} (hnone : lane.2.ewmaNs = 0 → expected = none)
    (hsome : lane.2.ewmaNs ≠ 0 → expected = some (UInt64.ofNat (min (latency lane) (2 ^ 64 - 1)))) :
    (gate now request lane expected).map UInt64.toNat = lane.scored latency now request := by
  unfold gate Lane.scored Lane.Admitted Lane.Serves
  by_cases hmask : lane.1.unitClassMask = 0
  · simp [hmask]
  by_cases hcovers : lane.1.covers request.requiredClassMask
  swap
  · simp [hcovers]
  by_cases hjurisdiction : lane.1.allowsJurisdiction request.jurisdiction
  swap
  · simp [hjurisdiction]
  by_cases hfresh : DispatchRequest.isFresh now lane.2
  swap
  · simp [hfresh]
  by_cases hewma : lane.2.ewmaNs = 0
  · simp [hnone hewma, hewma]
  rw [hsome hewma]
  have hscore : (if lane.1.holdsLocality request.affinityKey
      then saturatingSub (UInt64.ofNat (min (latency lane) (2 ^ 64 - 1))) affinityBonusNs
      else UInt64.ofNat (min (latency lane) (2 ^ 64 - 1))).toNat = lane.score latency request := by
    unfold Lane.score
    split
    · rw [toNat_saturatingSub, toNat_ofNat_min]
    · rw [toNat_ofNat_min, Nat.sub_zero]
  have hserves : lane.1.unitClassMask ≠ 0 ∧ True ∧ True ∧ True ∧ lane.2.ewmaNs ≠ 0 :=
    ⟨hmask, trivial, trivial, trivial, hewma⟩
  simp only [if_neg hmask, hcovers, hjurisdiction, hfresh, Bool.not_true,
    Bool.false_eq_true, if_false]
  generalize (if lane.1.holdsLocality request.affinityKey
      then saturatingSub (UInt64.ofNat (min (latency lane) (2 ^ 64 - 1))) affinityBonusNs
      else UInt64.ofNat (min (latency lane) (2 ^ 64 - 1))) = score at hscore ⊢
  have hlate : score > request.deadlineNs ↔
      ¬ lane.score latency request ≤ request.deadlineNs.toNat := by
    rw [gt_iff_lt, UInt64.lt_iff_toNat_lt, hscore, not_le]
  by_cases hdeadline : lane.score latency request ≤ request.deadlineNs.toNat
  · rw [if_neg fun h => hlate.mp h hdeadline, if_pos ⟨hserves, hdeadline⟩, Option.map_some, hscore]
  · rw [if_pos (hlate.mpr hdeadline), if_neg fun h => hdeadline h.2]
    rfl

def Runtimehost.laneScore (now : UInt64) (request : DispatchRequest) (lane : Lane) :
    Option UInt64 :=
  gate now request lane (expectedLatencyNs lane.2 lane.1)

theorem runtimehost_laneScore (now : UInt64) (request : DispatchRequest) (lane : Lane) :
    (Runtimehost.laneScore now request lane).map UInt64.toNat = lane.scored Lane.wholeLatency
      now request :=
  gate_toNat now request lane (fun h => by simp [Runtimehost.expectedLatencyNs, h])
    (runtimehost_expectedLatencyNs lane)

theorem ovrtDispatch_laneScore (now : UInt64) (request : DispatchRequest) (lane : Lane) :
    (OvrtDispatch.laneScore now request (lane.1, some lane.2)).map UInt64.toNat =
      lane.scored Lane.exactLatency now request :=
  gate_toNat now request lane (fun h => by simp [OvrtDispatch.expectedLatencyNs, h])
    (ovrtDispatch_expectedLatencyNs lane)

/-! ### The loops -/

theorem take_zip_of_le {α β : Type} (l : List α) (m : List β) {n k : ℕ} (hk : k ≤ n)
    (hn : min l.length m.length ≤ k ∨ k = n) : (l.zip m).take k = (l.zip m).take n := by
  rcases hn with hn | rfl
  · rw [List.take_of_length_le (by rw [List.length_zip]; exact hn),
      List.take_of_length_le (by rw [List.length_zip]; exact hn.trans hk)]
  · rfl

theorem seen_runtimehost (descriptors : List DispatchLaneDescriptor)
    (stats : List DispatchLaneStats) :
    (descriptors.zip stats).take (min (min stats.length descriptors.length) maxLanes) =
      (descriptors.zip stats).take maxLanes :=
  take_zip_of_le _ _ (min_le_right _ _) (by omega)

theorem seen_ovrtDispatch (descriptors : List DispatchLaneDescriptor)
    (stats : List (Option DispatchLaneStats)) :
    OvrtDispatch.rows descriptors stats = (descriptors.zip stats).take maxLanes :=
  take_zip_of_le _ _ (by omega) (by omega)

def Runtimehost.Best.of : Option (UInt64 × Lane) → Best
  | none => ⟨maxUint64, 0, false⟩
  | some (score, lane) => ⟨score, lane.1.laneId, true⟩

theorem runtimehost_consider_eq (now : UInt64) (request : DispatchRequest) (best : Runtimehost.Best)
    (lane : Lane) :
    Runtimehost.consider now request best lane =
      match Runtimehost.laneScore now request lane with
      | none => best
      | some score =>
        if !best.found || score < best.bestScore then ⟨score, lane.1.laneId, true⟩ else best := by
  unfold Runtimehost.consider Runtimehost.laneScore gate
  by_cases hmask : lane.1.unitClassMask = 0
  · simp [hmask]
  by_cases hcovers : lane.1.covers request.requiredClassMask
  swap
  · simp [hmask, hcovers]
  by_cases hjurisdiction : lane.1.allowsJurisdiction request.jurisdiction
  swap
  · simp [hmask, hcovers, hjurisdiction]
  by_cases hfresh : DispatchRequest.isFresh now lane.2
  swap
  · simp [hmask, hcovers, hjurisdiction, hfresh]
  simp only [if_neg hmask, hcovers, hjurisdiction, hfresh, Bool.not_true,
    Bool.false_eq_true, if_false]
  cases Runtimehost.expectedLatencyNs lane.2 lane.1 with
  | none => rfl
  | some expected =>
    dsimp only
    generalize (if lane.1.holdsLocality request.affinityKey then
      saturatingSub expected affinityBonusNs
      else expected) = score
    by_cases hdeadline : score > request.deadlineNs
    · rw [if_pos hdeadline, if_pos hdeadline]
    · rw [if_neg hdeadline, if_neg hdeadline]

theorem runtimehost_consider (now : UInt64) (request : DispatchRequest)
    (best : Option (UInt64 × Lane)) (lane : Lane) :
    Runtimehost.consider now request (.of best) lane =
      .of (keep (Runtimehost.laneScore now request) best lane) := by
  rw [runtimehost_consider_eq]
  unfold keep
  cases Runtimehost.laneScore now request lane with
  | none => rfl
  | some score =>
    cases best with
    | none => rfl
    | some best =>
      by_cases hlt : score < best.1
      · simp [Runtimehost.Best.of, hlt]
      · simp [Runtimehost.Best.of, hlt]

def placed (r : UInt16 × Bool) : Option UInt16 := if r.2 then some r.1 else none

theorem placed_of (best : Option (UInt64 × Lane)) :
    placed ((Runtimehost.Best.of best).laneID, (Runtimehost.Best.of best).found) =
      (best.map Prod.snd).map fun lane => lane.1.laneId := by
  cases best <;> rfl

theorem map_laneId_eq_some {α : Type} {β : Type} [LinearOrder β] (score : α → Option β)
    (laneId : α → UInt16) (l : List α) (id : UInt16) :
    ((l.foldl (keep score) none).map Prod.snd).map laneId = some id ↔
      ∃ lane, FirstLeast score l lane ∧ laneId lane = id := by
  rw [Option.map_eq_some_iff]
  simp only [foldl_map_snd]

theorem runtimehost_decide (now : UInt64) (descriptors : List DispatchLaneDescriptor)
    (stats : List DispatchLaneStats) (request : DispatchRequest) (id : UInt16) :
    placed (Runtimehost.decide now descriptors stats request) = some id ↔
      ∃ lane,
        FirstLeast (Lane.scored Lane.wholeLatency now request)
        ((descriptors.zip stats).take maxLanes) lane ∧
        lane.1.laneId = id := by
  have hloop : ((descriptors.zip stats).take maxLanes).foldl
      (Runtimehost.consider now request) (.of none) =
      .of (((descriptors.zip stats).take maxLanes).foldl (keep (Runtimehost.laneScore now request))
        none) :=
    List.foldl_hom _ (runtimehost_consider now request)
  have hdecide : Runtimehost.decide now descriptors stats request =
      (let best := ((descriptors.zip stats).take maxLanes).foldl
        (Runtimehost.consider now request) (.of none)
       (best.laneID, best.found)) := by
    rw [← seen_runtimehost]
    rfl
  rw [hdecide, hloop, placed_of, map_laneId_eq_some]
  simp only [← firstLeast_map_score toNat_strictMono, runtimehost_laneScore]

/-! Rust skips rows without statistics and keeps the lane number alone. -/

abbrev Row := DispatchLaneDescriptor × Option DispatchLaneStats

namespace Row

def lane? (row : Row) : Option Lane := row.2.map fun stats => (row.1, stats)

end Row

def sampled (rows : List Row) : List Lane := rows.filterMap Row.lane?

def OvrtDispatch.scoreOf (now : UInt64) (request : DispatchRequest) (lane : Lane) : Option UInt64 :=
  laneScore now request (lane.1, some lane.2)

def bestOf (best : Option (UInt64 × Lane)) : Option (UInt64 × UInt16) :=
  best.map fun b => (b.1, b.2.1.laneId)

theorem ovrtDispatch_consider (now : UInt64) (request : DispatchRequest)
    (best : Option (UInt64 × Lane)) (row : Row) :
    OvrtDispatch.consider now request (bestOf best) row =
      bestOf (match row.lane? with
        | some lane => keep (OvrtDispatch.scoreOf now request) best lane
        | none => best) := by
  obtain ⟨descriptor, stats⟩ := row
  cases stats with
  | none => rfl
  | some stats =>
    simp only [OvrtDispatch.consider, Row.lane?, Option.map_some, keep, OvrtDispatch.scoreOf]
    cases OvrtDispatch.laneScore now request (descriptor, some stats) with
    | none => rfl
    | some score =>
      cases best with
      | none => rfl
      | some best =>
        by_cases hlt : score < best.1
        · simp [bestOf, hlt]
        · simp [bestOf, hlt]

/-- The lanes both Rust functions look at. -/
def seen (descriptors : List DispatchLaneDescriptor) (stats : List (Option DispatchLaneStats)) :
    List Lane :=
  sampled ((descriptors.zip stats).take maxLanes)

theorem ovrtDispatch_decide_eq (now : UInt64) (descriptors : List DispatchLaneDescriptor)
    (stats : List (Option DispatchLaneStats)) (request : DispatchRequest) :
    OvrtDispatch.decide now descriptors stats request =
      (((seen descriptors stats).foldl (keep (OvrtDispatch.scoreOf now request)) none).map
        Prod.snd).map
        fun lane => lane.1.laneId := by
  have hloop : (OvrtDispatch.rows descriptors stats).foldl (OvrtDispatch.consider now request)
      (bestOf none) =
      bestOf ((seen descriptors stats).foldl (keep (OvrtDispatch.scoreOf now request)) none) := by
    rw [seen_ovrtDispatch, seen, sampled, List.foldl_filterMap]
    exact List.foldl_hom _ fun best row =>
      (ovrtDispatch_consider now request best row).trans (by cases Row.lane? row <;> rfl)
  have hdecide : OvrtDispatch.decide now descriptors stats request =
      ((OvrtDispatch.rows descriptors stats).foldl (OvrtDispatch.consider now request)
        (bestOf none)).map Prod.snd :=
    rfl
  rw [hdecide, hloop, bestOf, Option.map_map, Option.map_map]
  rfl

theorem ovrtDispatch_decide_some (now : UInt64) (descriptors : List DispatchLaneDescriptor)
    (stats : List (Option DispatchLaneStats)) (request : DispatchRequest) (id : UInt16) :
    OvrtDispatch.decide now descriptors stats request = some id ↔
      ∃ lane, FirstLeast (Lane.scored Lane.exactLatency now request) (seen descriptors stats) lane ∧
        lane.1.laneId = id := by
  rw [ovrtDispatch_decide_eq, map_laneId_eq_some]
  simp only [← firstLeast_map_score toNat_strictMono, OvrtDispatch.scoreOf, ovrtDispatch_laneScore]

/-! ### Agreement -/

theorem seen_map_some (descriptors : List DispatchLaneDescriptor) (stats : List DispatchLaneStats) :
    seen descriptors (stats.map some) = (descriptors.zip stats).take maxLanes := by
  rw [seen, sampled, List.zip_map_right, ← List.map_take, List.filterMap_map]
  exact List.filterMap_some

/-- Whether the queue is counted in whole rounds or exactly, the same lanes meet the deadline,
in the same order. -/
structure RoundsImmaterial (now : UInt64) (request : DispatchRequest) (lanes : List Lane) :
  Prop where
  deadline : ∀ lane ∈ lanes, lane.Serves now request →
    (lane.score Lane.wholeLatency request ≤ request.deadlineNs.toNat ↔
      lane.score Lane.exactLatency request ≤ request.deadlineNs.toNat)
  order : ∀ a ∈ lanes, ∀ b ∈ lanes, a.Admitted Lane.exactLatency now request →
    b.Admitted Lane.exactLatency now request →
    (a.score Lane.wholeLatency request < b.score Lane.wholeLatency request ↔
      a.score Lane.exactLatency request < b.score Lane.exactLatency request)

theorem Lane.scored_eq_some {latency : Lane → ℕ} {now : UInt64} {request : DispatchRequest}
    {lane : Lane} {s : ℕ} : lane.scored latency now request = some s ↔
      lane.Admitted latency now request ∧ lane.score latency request = s := by
  unfold Lane.scored
  split
  · simp [*]
  · simp [*]

theorem RoundsImmaterial.sameRanking {now : UInt64} {request : DispatchRequest} {lanes : List Lane}
    (h : RoundsImmaterial now request lanes) :
    SameRanking (Lane.scored Lane.wholeLatency now request)
      (Lane.scored Lane.exactLatency now request)
      lanes := by
  refine ⟨fun lane hlane => ?_, fun a ha b hb s t s' t' hs ht hs' ht' => ?_⟩
  · have hadmitted : lane.Admitted Lane.wholeLatency now request ↔
        lane.Admitted Lane.exactLatency now request := and_congr_right (h.deadline lane hlane)
    unfold Lane.scored
    by_cases hex : lane.Admitted Lane.exactLatency now request
    · rw [if_pos (hadmitted.mpr hex), if_pos hex]
      rfl
    · rw [if_neg fun hwhole => hex (hadmitted.mp hwhole), if_neg hex]
  · obtain ⟨-, rfl⟩ := Lane.scored_eq_some.mp hs
    obtain ⟨-, rfl⟩ := Lane.scored_eq_some.mp ht
    obtain ⟨hadm, rfl⟩ := Lane.scored_eq_some.mp hs'
    obtain ⟨hadm', rfl⟩ := Lane.scored_eq_some.mp ht'
    exact h.order a ha b hb hadm hadm'

/-- `BlendEwma` and `blend_ewma` agree everywhere; `Decide` and `decide` agree on tables whose
lanes are ranked alike by both counts of the queue. -/
theorem runtimes_agree {now : UInt64} {descriptors : List DispatchLaneDescriptor}
    {stats : List DispatchLaneStats} {request : DispatchRequest} :
    (∀ previousNs sampleNs, Runtimehost.blendEwma previousNs sampleNs =
      some (OvrtDispatch.blendEwma previousNs sampleNs)) ∧
    (RoundsImmaterial now request ((descriptors.zip stats).take maxLanes) →
      placed (Runtimehost.decide now descriptors stats request) =
        OvrtDispatch.decide now descriptors (stats.map some) request) := by
  refine ⟨blendEwma_agree, fun h => Option.ext fun id => ?_⟩
  rw [runtimehost_decide, ovrtDispatch_decide_some, seen_map_some]
  simp only [h.sameRanking.firstLeast_iff]

/-- Two lanes of two slots, one of them half loaded: Go expects 100 ns there and Rust 150 ns,
and both place the work on it. -/
theorem half_loaded_lane_agrees :
    let lanes : List DispatchLaneDescriptor := [⟨1, 0, 0, 0, 2, 1⟩, ⟨1, 0, 1, 0, 2, 1⟩]
    let stats : List DispatchLaneStats := [⟨300, 0, 2, 10⟩, ⟨100, 1, 2, 10⟩]
    let request : DispatchRequest := ⟨1, 0, 400, 0⟩
    placed (Runtimehost.decide 10 lanes stats request) =
      OvrtDispatch.decide 10 lanes (stats.map some) request ∧
      OvrtDispatch.decide 10 lanes (stats.map some) request = some 1 :=
  ⟨runtimes_agree.2 ⟨by decide, by decide⟩, by decide⟩

/-- One unit in flight on a lane of two: Go expects 100 ns, Rust 150 ns. -/
theorem half_loaded_lane_differs :
    let lane : DispatchLaneDescriptor := ⟨1, 0, 0, 0, 2, 1⟩
    let stats : DispatchLaneStats := ⟨100, 1, 2, 10⟩
    let request : DispatchRequest := ⟨1, 0, 120, 0⟩
    placed (Runtimehost.decide 10 [lane] [stats] request) = some 0 ∧
      OvrtDispatch.decide 10 [lane] [some stats] request = none := by
  decide

/-! ### The placement contract -/

namespace Lane

/-- Serves, and its expected latency before the bonus meets the deadline. -/
def Eligible (now : UInt64) (request : DispatchRequest) (lane : Lane) : Prop :=
  lane.Serves now request ∧ min lane.exactLatency (2 ^ 64 - 1) ≤ request.deadlineNs.toNat

instance (now : UInt64) (request : DispatchRequest) (lane : Lane) :
  Decidable (lane.Eligible now request) := by
  unfold Eligible
  infer_instance

/-- Of lower adjusted score, or of the same score and no higher number. -/
def Precedes (request : DispatchRequest) (lane other : Lane) : Prop :=
  lane.score exactLatency request < other.score exactLatency request ∨
    lane.score exactLatency request = other.score exactLatency request ∧
      lane.1.laneId ≤ other.1.laneId

instance (request : DispatchRequest) (lane other : Lane) :
  Decidable (lane.Precedes request other) := by
  unfold Precedes
  infer_instance

theorem Precedes.trans {request : DispatchRequest} {a b c : Lane} (hab : a.Precedes request b)
    (hbc : b.Precedes request c) : a.Precedes request c := by
  unfold Precedes at *
  rcases hab with hab | ⟨hab, hid⟩
  · exact .inl (by omega)
  · rcases hbc with hbc | ⟨hbc, hid'⟩
    · exact .inl (by omega)
    · exact .inr ⟨hab.trans hbc, UInt16.le_trans hid hid'⟩

/-- Eligible, of minimal adjusted score, of the lowest number among those. -/
def Best (now : UInt64) (request : DispatchRequest) (lanes : List Lane) (lane : Lane) : Prop :=
  lane ∈ lanes ∧ lane.Eligible now request ∧
    ∀ other ∈ lanes, other.Eligible now request → lane.Precedes request other

theorem Eligible.admitted {now : UInt64} {request : DispatchRequest} {lane : Lane}
    (h : lane.Eligible now request) : lane.Admitted exactLatency now request :=
  ⟨h.1, (Nat.sub_le _ _).trans h.2⟩

end Lane

/-- What placement promises for one tick, table and request. -/
structure Contract (now : UInt64) (descriptors : List DispatchLaneDescriptor)
    (stats : List (Option DispatchLaneStats)) (request : DispatchRequest) : Prop where
  none_iff : OvrtDispatch.decide now descriptors stats request = none ↔
    ∀ lane ∈ sampled (descriptors.zip stats), ¬ lane.Eligible now request
  best : ∀ id, OvrtDispatch.decide now descriptors stats request = some id →
    ∃ lane : Lane, lane.Best now request (sampled (descriptors.zip stats)) ∧ lane.1.laneId = id
  drawn : ∀ id, OvrtDispatch.decidePowerOfTwo now descriptors stats request = some id →
    ∃ lane ∈ sampled (descriptors.zip stats), lane.Eligible now request ∧ lane.1.laneId = id

/-- A table on which the loops' shortcuts have no effect: a row past those looked at is preceded
by one of them, no lane needs the bonus to meet the deadline, and the numbers of the lanes that
share the lowest score ascend with the rows. -/
structure Plain (now : UInt64) (descriptors : List DispatchLaneDescriptor)
    (stats : List (Option DispatchLaneStats)) (request : DispatchRequest) : Prop where
  beyond : ∀ lane ∈ sampled ((descriptors.zip stats).drop maxLanes), lane.Eligible now request →
    ∃ other ∈ seen descriptors stats, other.Eligible now request ∧ other.Precedes request lane
  unaided : ∀ lane ∈ seen descriptors stats, lane.Admitted Lane.exactLatency now request →
    lane.Eligible now request
  ascending : (seen descriptors stats).Pairwise fun a b => a.Eligible now request →
    b.Eligible now request → a.score Lane.exactLatency request = b.score Lane.exactLatency request →
    (∀ other ∈ seen descriptors stats, other.Eligible now request →
      a.score Lane.exactLatency request ≤ other.score Lane.exactLatency request) →
    a.1.laneId ≤ b.1.laneId

section

variable {now : UInt64} {descriptors : List DispatchLaneDescriptor}
  {stats : List (Option DispatchLaneStats)} {request : DispatchRequest}

/-- A table that is looked at as a whole, in the order of its numbers. -/
theorem plain_of_ascending (hrows : descriptors.length ≤ maxLanes)
    (hids : (seen descriptors stats).Pairwise fun a b => a.1.laneId ≤ b.1.laneId)
    (hunaided : ∀ lane ∈ seen descriptors stats, lane.Admitted Lane.exactLatency now request →
      lane.Eligible now request) : Plain now descriptors stats request := by
  refine ⟨fun lane hlane => ?_, hunaided, hids.imp fun hle _ _ _ _ => hle⟩
  rw [List.drop_eq_nil_of_le (by rw [List.length_zip]; omega)] at hlane
  cases hlane

theorem sampled_zip : sampled (descriptors.zip stats) =
    seen descriptors stats ++ sampled ((descriptors.zip stats).drop maxLanes) := by
  rw [seen, sampled, sampled, sampled, ← List.filterMap_append, List.take_append_drop]

theorem ovrtDispatch_decide_none : OvrtDispatch.decide now descriptors stats request = none ↔
    ∀ lane ∈ seen descriptors stats, ¬ lane.Admitted Lane.exactLatency now request := by
  rw [ovrtDispatch_decide_eq, Option.map_eq_none_iff, Option.map_eq_none_iff, foldl_eq_none]
  refine forall₂_congr fun lane _ => ?_
  rw [OvrtDispatch.scoreOf, ← Option.map_eq_none_iff, ovrtDispatch_laneScore, Lane.scored,
    ite_eq_right_iff]
  simp

theorem sample_mem {z : UInt64} {candidates : List (UInt64 × UInt16)} {id : UInt16}
    (h : OvrtDispatch.sample z candidates = some id) : ∃ c ∈ candidates, c.2 = id := by
  rcases candidates with - | ⟨c, - | ⟨d, rest⟩⟩
  · cases h
  · exact ⟨c, List.mem_singleton_self c, Option.some_inj.mp h⟩
  · have hmem : ∀ i, i < (c :: d :: rest).length → (c :: d :: rest).getD i (0, 0) ∈ c ::
        d :: rest := by
      intro i hi
      rw [List.getD_eq_getElem?_getD, List.getElem?_eq_getElem hi]
      exact List.getElem_mem hi
    have hpos : 0 < (c :: d :: rest).length := Nat.succ_pos _
    simp only [OvrtDispatch.sample] at h
    split at h
    · exact ⟨_, hmem _ (Nat.mod_lt _ hpos), Option.some_inj.mp h⟩
    · exact ⟨_, hmem _ (Nat.mod_lt _ hpos), Option.some_inj.mp h⟩

theorem candidate_admitted {c : UInt64 × UInt16}
    (h : c ∈ OvrtDispatch.candidates now descriptors stats request) :
    ∃ lane ∈ seen descriptors stats, lane.Admitted Lane.exactLatency now request ∧
      lane.1.laneId = c.2 := by
  obtain ⟨⟨descriptor, stats?⟩, hrow, hc⟩ := List.mem_filterMap.mp h
  obtain ⟨score, hscore, rfl⟩ := Option.map_eq_some_iff.mp hc
  rw [seen_ovrtDispatch] at hrow
  cases stats? with
  | none => cases hscore
  | some laneStats =>
    have hscored := ovrtDispatch_laneScore now request (descriptor, laneStats)
    rw [hscore, Option.map_some] at hscored
    exact ⟨(descriptor, laneStats), List.mem_filterMap.mpr ⟨_, hrow, rfl⟩,
      (Lane.scored_eq_some.mp hscored.symm).1, rfl⟩

section

variable {lane : Lane}
  (hleast : FirstLeast (Lane.scored Lane.exactLatency now request) (seen descriptors stats) lane)

include hleast

theorem Plain.eligible (h : Plain now descriptors stats request) : lane.Eligible now request := by
  obtain ⟨s, hs⟩ := hleast.scored
  exact h.unaided lane hleast.mem (Lane.scored_eq_some.mp hs).1

/-- The first lane of lowest score precedes every eligible lane looked at. -/
theorem Plain.precedes_seen (h : Plain now descriptors stats request) {other : Lane}
    (hother : other ∈ seen descriptors stats) (heligible : other.Eligible now request) :
    lane.Precedes request other := by
  have hself := h.eligible hleast
  have hle : ∀ b ∈ seen descriptors stats, b.Eligible now request →
      lane.score Lane.exactLatency request ≤ b.score Lane.exactLatency request := fun b hb hel =>
    hleast.le hb (Lane.scored_eq_some.mpr ⟨hself.admitted, rfl⟩)
      (Lane.scored_eq_some.mpr ⟨hel.admitted, rfl⟩)
  refine (hle other hother heligible).lt_or_eq.imp_right fun heq => ⟨heq, ?_⟩
  -- a tie stands after the first minimum, so the numbers ascend between the two
  obtain ⟨before, after, s, hsplit, hs, hbefore, -⟩ := hleast
  obtain ⟨-, rfl⟩ := Lane.scored_eq_some.mp hs
  have hpairs := h.ascending
  rw [hsplit] at hother hpairs
  rcases List.mem_append.mp hother with hother | hother
  · have hlt := hbefore other hother _ (Lane.scored_eq_some.mpr ⟨heligible.admitted, rfl⟩)
    exact absurd heq hlt.ne
  · rcases List.mem_cons.mp hother with rfl | hother
    · exact UInt16.le_refl _
    · have hafter := (List.pairwise_cons.mp (List.pairwise_append.mp hpairs).2.1).1 other hother
      exact hafter hself heligible heq (hsplit ▸ hle)

theorem Plain.best (h : Plain now descriptors stats request) :
    lane.Best now request (sampled (descriptors.zip stats)) := by
  rw [sampled_zip]
  refine ⟨List.mem_append_left _ hleast.mem, h.eligible hleast, fun other hother heligible => ?_⟩
  rcases List.mem_append.mp hother with hother | hother
  · exact h.precedes_seen hleast hother heligible
  · obtain ⟨mid, hmid, hel, hbefore⟩ := h.beyond other hother heligible
    exact (h.precedes_seen hleast hmid hel).trans hbefore

end

/-- The contract holds for every request and every table that is plain for it. -/
theorem placement_contract (h : Plain now descriptors stats request) :
    Contract now descriptors stats request := by
  have hbest : ∀ id, OvrtDispatch.decide now descriptors stats request = some id →
      ∃ lane : Lane, lane.Best now request (sampled (descriptors.zip stats)) ∧
        lane.1.laneId = id := by
    intro id hid
    obtain ⟨lane, hlane, rfl⟩ := (ovrtDispatch_decide_some ..).mp hid
    exact ⟨lane, h.best hlane, rfl⟩
  refine ⟨⟨fun hnone lane hlane heligible => ?_, fun hineligible => ?_⟩, hbest, fun id hid => ?_⟩
  · have hseen := ovrtDispatch_decide_none.mp hnone
    rw [sampled_zip] at hlane
    rcases List.mem_append.mp hlane with hlane | hlane
    · exact hseen lane hlane heligible.admitted
    · obtain ⟨other, hother, hel, -⟩ := h.beyond lane hlane heligible
      exact hseen other hother hel.admitted
  · cases hid : OvrtDispatch.decide now descriptors stats request with
    | none => rfl
    | some id =>
      obtain ⟨lane, ⟨hmem, heligible, -⟩, -⟩ := hbest id hid
      exact absurd heligible (hineligible lane hmem)
  · obtain ⟨c, hc, rfl⟩ := sample_mem hid
    obtain ⟨lane, hlane, hadmitted, hlaneId⟩ := candidate_admitted hc
    refine ⟨lane, ?_, h.unaided lane hlane hadmitted, hlaneId⟩
    rw [sampled_zip]
    exact List.mem_append_left _ hlane

end

/-- Two lanes in order of their numbers, the second with the locality bonus. -/
theorem ascending_lanes_contract :
    let lanes : List DispatchLaneDescriptor := [⟨1, 0, 0, 0, 1, 1⟩, ⟨1, 1, 1, 0, 1, 1⟩]
    let stats : List (Option DispatchLaneStats) :=
      [some ⟨100000, 0, 1, 10⟩, some ⟨300000, 0, 1, 10⟩]
    let request : DispatchRequest := ⟨1, 0, 400000, 0⟩
    Contract 10 lanes stats request ∧ OvrtDispatch.decide 10 lanes stats request = some 1 :=
  ⟨placement_contract (plain_of_ascending (by decide) (by decide) (by decide)), by decide⟩

/-- A lane that expects 300 µs meets a deadline of 100 µs by its locality bonus. -/
theorem late_lane_placed :
    let lane : DispatchLaneDescriptor := ⟨1, 1, 0, 0, 1, 1⟩
    let stats : DispatchLaneStats := ⟨300000, 0, 1, 10⟩
    let request : DispatchRequest := ⟨1, 0, 100000, 0⟩
    OvrtDispatch.decide 10 [lane] [some stats] request = some 0 ∧
      OvrtDispatch.decidePowerOfTwo 10 [lane] [some stats] request = some 0 ∧
      ∀ l ∈ sampled ([lane].zip [some stats]), ¬ Lane.Eligible 10 request l := by
  decide

end Foundation.Dispatch
