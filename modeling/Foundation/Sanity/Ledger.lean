import Foundation.Sanity.Sources

/-! The ledger of applied sources. A fence counts the remembered sources of its name, so it
stays as long as one of them is remembered, and the source remembered last always is. -/

namespace Foundation.Hermes

open Go

variable {order : List String} {watermarks : GoMap String WatermarkFence} {oldest : String}
  {rest : List String} {applied : Finset String} {bound : ℤ} {noted : String → ℕ}

namespace Partition

/-- How many of the sources carry the fence name `pre`. -/
def sourcesOf (pre : String) (order : List String) : ℕ :=
  order.countP fun source => sourceWatermarkPrefix source = some pre

/-- Every fence counts at least the remembered sources of its name, and never none. -/
structure Counted (order : List String) (watermarks : GoMap String WatermarkFence) : Prop where
  refs : ∀ pre, 0 < sourcesOf pre order →
    ∃ fence, watermarks.lookup pre = some fence ∧ sourcesOf pre order ≤ fence.refs
  pos : ∀ pre fence, watermarks.lookup pre = some fence → 0 < fence.refs

theorem sourcesOf_cons (pre source : String) (order : List String) :
    sourcesOf pre (source :: order) =
      sourcesOf pre order + if sourceWatermarkPrefix source = some pre then 1 else 0 := by
  simp [sourcesOf, List.countP_cons]

theorem sourcesOf_append_singleton (pre source : String) (order : List String) :
    sourcesOf pre (order ++ [source]) =
      sourcesOf pre order + if sourceWatermarkPrefix source = some pre then 1 else 0 := by
  simp [sourcesOf, List.countP_append, List.countP_cons]

theorem sourcesOf_pos {pre source : String} (hm : source ∈ order)
    (hp : sourceWatermarkPrefix source = some pre) : 0 < sourcesOf pre order :=
  List.countP_pos_iff.mpr ⟨source, hm, by simpa using hp⟩

theorem countSource_lookup (watermarks : GoMap String WatermarkFence) (source pre : String)
    (version : ℕ) :
    (countSource watermarks source version).lookup pre = if sourceWatermarkPrefix source =
      some pre then
      some ⟨max ((watermarks.lookup pre).getD {}).version version,
        ((watermarks.lookup pre).getD {}).refs + 1⟩
    else watermarks.lookup pre := by
  unfold countSource
  cases hp : sourceWatermarkPrefix source with
  | none => simp
  | some own =>
    dsimp only
    rw [GoMap.lookup_insert_if]
    by_cases heq : pre = own
    · subst heq
      rw [if_pos rfl, if_pos rfl]
    · rw [if_neg heq, if_neg fun h => heq (Option.some.inj h).symm]

theorem releaseSource_lookup_if (watermarks : GoMap String WatermarkFence) (source pre : String) :
    (releaseSource watermarks source).lookup pre = if sourceWatermarkPrefix source = some pre then
      (watermarks.lookup pre).bind fun fence =>
        if fence.refs - 1 ≤ 0 then none else some { fence with refs := fence.refs - 1 }
    else watermarks.lookup pre := by
  unfold releaseSource
  cases hp : sourceWatermarkPrefix source with
  | none => simp
  | some own =>
    dsimp only
    by_cases heq : pre = own
    · subst heq
      rw [if_pos rfl]
      cases hl : watermarks.lookup pre with
      | none => exact hl
      | some fence =>
        dsimp only [Option.bind_some]
        split_ifs
        · rw [GoMap.lookup_erase_if, if_pos rfl]
        · rw [GoMap.lookup_insert_if, if_pos rfl]
    · rw [if_neg fun h => heq (Option.some.inj h).symm]
      split
      · rfl
      · split_ifs
        · rw [GoMap.lookup_erase_if, if_neg heq]
        · rw [GoMap.lookup_insert_if, if_neg heq]

theorem Counted.count (h : Counted order watermarks) (source : String) (version : ℕ) :
    Counted (order ++ [source]) (countSource watermarks source version) := by
  have hold : ∀ pre, (sourcesOf pre order : ℤ) ≤ ((watermarks.lookup pre).getD {}).refs :=
    fun pre => by
    rcases Nat.eq_zero_or_pos (sourcesOf pre order) with hz | hpos
    · rw [hz]
      cases hl : watermarks.lookup pre with
      | none => exact le_rfl
      | some fence => exact (h.pos pre fence hl).le
    · obtain ⟨fence, hl, hle⟩ := h.refs pre hpos
      rwa [hl]
  refine ⟨fun pre hpos => ?_, fun pre fence hl => ?_⟩
  · rw [sourcesOf_append_singleton] at hpos ⊢
    rw [countSource_lookup]
    split_ifs at hpos ⊢ with hp
    · exact ⟨_, rfl, by have := hold pre; push_cast; omega⟩
    · exact h.refs pre hpos
  · rw [countSource_lookup] at hl
    split_ifs at hl
    · obtain rfl := Option.some.inj hl
      have := hold pre
      dsimp only
      omega
    · exact h.pos pre fence hl

/-- Releasing the oldest source keeps the count, and with it every fence another source needs. -/
theorem Counted.release (h : Counted (oldest :: rest) watermarks) :
    Counted rest (releaseSource watermarks oldest) := by
  refine ⟨fun pre hpos => ?_, fun pre fence hl => ?_⟩
  · obtain ⟨fence, hl, hle⟩ := h.refs pre (by rw [sourcesOf_cons]; omega)
    rw [sourcesOf_cons] at hle
    rw [releaseSource_lookup_if, hl]
    split_ifs at hle ⊢ with hp
    · push_cast at hle
      rw [Option.bind_some, if_neg (by omega)]
      exact ⟨_, rfl, by dsimp only; omega⟩
    · exact ⟨fence, rfl, by simpa using hle⟩
  · rw [releaseSource_lookup_if] at hl
    split_ifs at hl
    · obtain ⟨old, hold, hnew⟩ := Option.bind_eq_some_iff.mp hl
      split_ifs at hnew
      obtain rfl := Option.some.inj hnew
      dsimp only
      omega
    · exact h.pos pre fence hl

theorem releaseSource_keeps {pre : String} {fence : WatermarkFence}
    (h : Counted (oldest :: rest) watermarks) (hpos : 0 < sourcesOf pre rest)
    (hl : watermarks.lookup pre = some fence) :
    ∃ fence', (releaseSource watermarks oldest).lookup pre = some fence' ∧
      fence'.version = fence.version := by
  obtain ⟨fence', hl', -⟩ := h.release.refs pre hpos
  obtain ⟨old, hold, hv⟩ := releaseSource_lookup hl'
  rw [hl] at hold
  obtain rfl := Option.some.inj hold
  exact ⟨fence', hl', hv.symm⟩

theorem evictApplied_nodup (bound : ℤ) (watermarks : GoMap String WatermarkFence) (hn : order.Nodup)
    (ha : applied = order.toFinset) :
    (evictApplied bound order applied watermarks).1.Nodup ∧
      (evictApplied bound order applied watermarks).2.1 =
        (evictApplied bound order applied watermarks).1.toFinset := by
  induction order generalizing applied watermarks with
  | nil => exact ⟨hn, ha⟩
  | cons oldest rest ih =>
    unfold evictApplied
    split_ifs
    · rw [List.nodup_cons] at hn
      refine ih _ hn.2 ?_
      rw [ha, List.toFinset_cons, Finset.erase_insert (by simpa using hn.1)]
    · exact ⟨hn, ha⟩

/-- The evictions leave a ledger that counts, and keep the fence of the source that came last. -/
theorem evictApplied_spec (hbound : 0 < bound) (applied : Finset String)
    (hc : Counted order watermarks) :
    Counted (evictApplied bound order applied watermarks).1
      (evictApplied bound order applied watermarks).2.2 ∧
      ∀ pre fence last, order.getLast? = some last → sourceWatermarkPrefix last = some pre →
        watermarks.lookup pre = some fence →
        ∃ fence', (evictApplied bound order applied watermarks).2.2.lookup pre = some fence' ∧
          fence'.version = fence.version := by
  induction order generalizing applied watermarks with
  | nil => exact ⟨hc, fun _ _ _ hlast => by cases hlast⟩
  | cons oldest rest ih =>
    unfold evictApplied
    split_ifs with hlen
    · have hrest : rest ≠ [] := by
        rintro rfl
        simp only [List.length_singleton] at hlen
        omega
      obtain ⟨hcount, hlast'⟩ := ih (applied.erase oldest) hc.release
      refine ⟨hcount, fun pre fence last hlast hpre hl => ?_⟩
      rw [List.getLast?_cons_of_ne_nil hrest] at hlast
      have hpos := sourcesOf_pos (List.mem_of_getLast? hlast) hpre
      obtain ⟨mid, hmid, hv⟩ := releaseSource_keeps hc hpos hl
      obtain ⟨fence', hl', hv'⟩ := hlast' pre mid last hlast hpre hmid
      exact ⟨fence', hl', hv'.trans hv⟩
    · exact ⟨hc, fun _ fence _ _ _ hl => ⟨fence, hl, rfl⟩⟩

/-- The ledger of a partition is in order. -/
structure Accounted (p : Partition) : Prop where
  counted : Counted p.applyOrder p.watermarks
  nodup : p.applyOrder.Nodup
  applied_eq : p.applied = p.applyOrder.toFinset

theorem newPartition_accounted (spec : NormalSpec) : (newPartition spec).Accounted :=
  ⟨⟨fun _ hpos => absurd hpos (by simp [sourcesOf, newPartition]), fun _ _ hl => by cases hl⟩,
    List.nodup_nil, rfl⟩

theorem Accounted.of_eq {p q : Partition} (h : p.Accounted) (ho : q.applyOrder = p.applyOrder)
    (ha : q.applied = p.applied) (hw : q.watermarks = p.watermarks) : q.Accounted := by
  refine ⟨?_, ?_, ?_⟩
  · rw [ho, hw]
    exact h.counted
  · rw [ho]
    exact h.nodup
  · rw [ha, ho]
    exact h.applied_eq

theorem remembered_push {source : String} (hn : order.Nodup) (ha : applied = order.toFinset)
    (hnew : source ∉ order) :
    (order ++ [source]).Nodup ∧ insert source applied = (order ++ [source]).toFinset := by
  constructor
  · rw [List.nodup_append]
    refine ⟨hn, List.nodup_singleton _, fun a hmem b hb => ?_⟩
    rw [List.mem_singleton.mp hb]
    rintro rfl
    exact hnew hmem
  · rw [ha, List.toFinset_append, Finset.union_comm]
    rfl

/-- Remembering a new source keeps the ledger in order and raises the source's fence. -/
theorem Accounted.remember {p : Partition} (h : p.Accounted) {source pre : String} (version : ℕ)
    (hne : source ≠ "") (hnew : source ∉ p.applied)
    (hpre : sourceWatermarkPrefix source = some pre) :
    (p.rememberAppliedLocked source version).Accounted ∧
      ∃ fence, (p.rememberAppliedLocked source version).watermarks.lookup pre = some fence ∧
        fence.version = max ((p.watermarks.lookup pre).getD {}).version version := by
  have hcount := h.counted.count source version
  have hfresh : source ∉ p.applyOrder := fun hm => hnew (h.applied_eq ▸ List.mem_toFinset.mpr hm)
  obtain ⟨hnodup, happlied⟩ := remembered_push h.nodup h.applied_eq hfresh
  obtain ⟨hcounted, hlast⟩ :=
    evictApplied_spec p.spec.maxAppliedEvents_pos (insert source p.applied) hcount
  obtain ⟨hn, ha⟩ :=
    evictApplied_nodup p.spec.maxAppliedEvents (countSource p.watermarks source version)
    hnodup happlied
  unfold rememberAppliedLocked
  rw [if_neg (by simp [hne, hnew])]
  refine ⟨⟨hcounted, hn, ha⟩, ?_⟩
  refine hlast pre ⟨max ((p.watermarks.lookup pre).getD {}).version version,
    ((p.watermarks.lookup pre).getD {}).refs + 1⟩ source (by simp) hpre ?_
  unfold countSource
  rw [hpre]
  dsimp only
  rw [GoMap.lookup_insert_if, if_pos rfl]

/-! ### Exact counts -/

/-- Every fence counts exactly the remembered sources of its name, there is none for a name
without them, and it is not below the version any of them was remembered with. -/
structure Tallied (order : List String) (watermarks : GoMap String WatermarkFence) (noted : String →
  ℕ) : Prop where
  refs : ∀ pre, ((watermarks.lookup pre).map (·.refs)).getD 0 = (sourcesOf pre order : ℤ)
  pos : ∀ pre fence, watermarks.lookup pre = some fence → 0 < fence.refs
  version : ∀ source ∈ order, ∀ pre fence, sourceWatermarkPrefix source = some pre →
    watermarks.lookup pre = some fence → noted source ≤ fence.version

theorem Tallied.count (h : Tallied order watermarks noted) {source : String} (hnew : source ∉ order)
    (version : ℕ) :
    Tallied (order ++ [source]) (countSource watermarks source version)
      (Function.update noted source version) := by
  have hrefs : ∀ pre, ((watermarks.lookup pre).getD {}).refs = (sourcesOf pre order : ℤ) :=
    fun pre => by
    rw [← h.refs pre]
    cases watermarks.lookup pre <;> rfl
  refine ⟨fun pre => ?_, fun pre fence hl => ?_, fun s hs pre fence hp hl => ?_⟩
  · rw [countSource_lookup, sourcesOf_append_singleton]
    split_ifs
    · rw [Option.map_some, Option.getD_some, hrefs]
      push_cast
      rfl
    · rw [h.refs pre, Nat.add_zero]
  · rw [countSource_lookup] at hl
    split_ifs at hl
    · obtain rfl := Option.some.inj hl
      have := hrefs pre
      dsimp only
      omega
    · exact h.pos pre fence hl
  · rw [countSource_lookup] at hl
    rcases List.mem_append.mp hs with hs | hs
    · have hne : s ≠ source := fun heq => hnew (heq ▸ hs)
      rw [Function.update_of_ne hne]
      split_ifs at hl
      · obtain rfl := Option.some.inj hl
        cases hold : watermarks.lookup pre with
        | none =>
          have hcount := h.refs pre
          have := sourcesOf_pos hs hp
          rw [hold] at hcount
          simp only [Option.map_none, Option.getD_none] at hcount
          omega
        | some fence => exact (h.version s hs pre fence hp hold).trans (le_max_left _ _)
      · exact h.version s hs pre fence hp hl
    · obtain rfl := List.mem_singleton.mp hs
      rw [if_pos hp] at hl
      rw [Function.update_self, ← Option.some.inj hl]
      exact le_max_right _ _

theorem Tallied.release (h : Tallied (oldest :: rest) watermarks noted) :
    Tallied rest (releaseSource watermarks oldest) noted := by
  refine ⟨fun pre => ?_, fun pre fence hl => ?_, fun s hs pre fence hp hl => ?_⟩
  · have hold := h.refs pre
    rw [sourcesOf_cons] at hold
    rw [releaseSource_lookup_if]
    split_ifs at hold ⊢
    · cases hl : watermarks.lookup pre with
      | none =>
        rw [hl] at hold
        push_cast at hold
        simp only [Option.map_none, Option.getD_none] at hold
        omega
      | some fence =>
        rw [hl] at hold
        push_cast at hold
        simp only [Option.map_some, Option.getD_some] at hold
        rw [Option.bind_some]
        split_ifs
        · simp only [Option.map_none, Option.getD_none]
          omega
        · simp only [Option.map_some, Option.getD_some]
          omega
    · rw [hold, Nat.add_zero]
  · rw [releaseSource_lookup_if] at hl
    split_ifs at hl
    · obtain ⟨old, -, hnew⟩ := Option.bind_eq_some_iff.mp hl
      split_ifs at hnew
      obtain rfl := Option.some.inj hnew
      dsimp only
      omega
    · exact h.pos pre fence hl
  · obtain ⟨old, hold, hv⟩ := releaseSource_lookup hl
    exact hv ▸ h.version s (List.mem_cons_of_mem _ hs) pre old hp hold

theorem evictApplied_tallied (h : Tallied order watermarks noted) :
    Tallied (evictApplied bound order applied watermarks).1
      (evictApplied bound order applied watermarks).2.2
      noted := by
  induction order generalizing applied watermarks with
  | nil => exact h
  | cons oldest rest ih =>
    unfold evictApplied
    split_ifs
    · exact ih h.release
    · exact h

theorem evictApplied_length (hbound : 0 < bound) (order : List String) (applied : Finset String)
    (watermarks : GoMap String WatermarkFence) :
    ((evictApplied bound order applied watermarks).1.length : ℤ) ≤ bound := by
  induction order generalizing applied watermarks with
  | nil => exact hbound.le
  | cons oldest rest ih =>
    unfold evictApplied
    split_ifs with hlen
    · exact ih _ _
    · exact not_lt.mp hlen

/-- The ledger of a partition in which every source was remembered as `noted` says. -/
structure Settles (p : Partition) (noted : String → ℕ) : Prop where
  tallied : Tallied p.applyOrder p.watermarks noted
  nodup : p.applyOrder.Nodup
  applied_eq : p.applied = p.applyOrder.toFinset
  bounded : (p.applyOrder.length : ℤ) ≤ p.spec.maxAppliedEvents

/-- The versions sources were remembered with, after one more is offered to the ledger. -/
def noting (p : Partition) (noted : String → ℕ) (source : String) (version : ℕ) : String → ℕ :=
  if source = "" ∨ source ∈ p.applied then noted else Function.update noted source version

theorem Settles.congr {p q : Partition} (h : p.Settles noted) (hs : q.spec = p.spec)
    (ho : q.applyOrder = p.applyOrder) (ha : q.applied = p.applied)
    (hw : q.watermarks = p.watermarks) :
    q.Settles noted := by
  refine ⟨?_, ?_, ?_, ?_⟩
  · rw [ho, hw]
    exact h.tallied
  · rw [ho]
    exact h.nodup
  · rw [ha, ho]
    exact h.applied_eq
  · rw [ho, hs]
    exact h.bounded

theorem Settles.remember {p : Partition} (h : p.Settles noted) (source : String) (version : ℕ) :
    (p.rememberAppliedLocked source version).Settles (p.noting noted source version) := by
  unfold noting
  split_ifs with hskip
  · rw [rememberAppliedLocked, if_pos hskip]
    exact h
  · have hnew : source ∉ p.applyOrder := fun hm =>
      hskip (.inr (h.applied_eq ▸ List.mem_toFinset.mpr hm))
    obtain ⟨hnodup, happlied⟩ := remembered_push h.nodup h.applied_eq hnew
    have htally := h.tallied.count hnew version
    obtain ⟨hn, ha⟩ :=
      evictApplied_nodup p.spec.maxAppliedEvents (countSource p.watermarks source version)
      hnodup happlied
    rw [rememberAppliedLocked, if_neg hskip]
    exact ⟨evictApplied_tallied htally, hn, ha,
      evictApplied_length p.spec.maxAppliedEvents_pos _ _ _⟩

end Partition

end Foundation.Hermes
