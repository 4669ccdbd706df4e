import Foundation.Spec.Hub

/-! The vector policy of a subscriber. A frame has a variant for every policy that was counted, so a
subscriber gets its own one unless it came after the count and was the first with its policy. -/

namespace Foundation.Projectiongw

open Go

variable {ι : Type} [DecidableEq ι]

def Plain (mutations : List RecordMutation) : Prop := ∀ m ∈ mutations, m.vector = []

def Policy (vectors : Bool) (d : Delivery) : Prop :=
  ∃ ms, d.envelope = some ms ∧ if vectors then ms = d.applied else Plain ms

theorem plain_withoutVectors (mutations : List RecordMutation) :
    Plain (withoutVectors mutations) := by
  intro m hm
  obtain ⟨m', -, rfl⟩ := List.mem_map.mp hm
  split_ifs with h
  · exact h
  · rfl

theorem withoutVectors_of_plain {mutations : List RecordMutation} (h : Plain mutations) :
    withoutVectors mutations = mutations := by
  refine (List.map_congr_left fun m hm => ?_).trans (List.map_id _)
  rw [if_pos (h m hm), id]

/-- The variant of a policy was asked for, or there is no difference. -/
def Wanted (mutations : List RecordMutation) (withVectors withoutVectors : ℕ) (vectors : Bool) :
    Prop :=
  0 < (if vectors then withVectors else withoutVectors) ∨ Plain mutations

theorem policy_deliver {mutations : List RecordMutation} {withVectors withoutVectors : ℕ}
    {vectors : Bool} (h : Wanted mutations withVectors withoutVectors vectors)
    (hcounted : ¬ (withVectors = 0 ∧ withoutVectors = 0)) :
    Policy vectors ⟨mutations,
      deliver vectors (encodeFrameVariants mutations (0 < withVectors) (0 < withoutVectors))⟩ := by
  rcases h with hwanted | hplain
  · cases vectors with
    | true =>
      have hpos : 0 < withVectors := hwanted
      exact ⟨mutations, by simp [deliver, encodeFrameVariants, hpos], rfl⟩
    | false =>
      have hpos : 0 < withoutVectors := hwanted
      exact ⟨_, by simp [deliver, encodeFrameVariants, hpos], plain_withoutVectors mutations⟩
  · refine ⟨mutations, ?_, by split_ifs <;> trivial⟩
    have hone : 0 < withVectors ∨ 0 < withoutVectors := by omega
    simp only [deliver, encodeFrameVariants, withoutVectors_of_plain hplain]
    by_cases h1 : 0 < withVectors <;> by_cases h2 : 0 < withoutVectors <;> simp_all

/-! ### Runs -/

/-- A call between its count and its broadcast: its topic, its mutations and what it counted. -/
def FanOut.pending : FanOut → Option (String × List RecordMutation × ℕ × ℕ)
  | .counted key mutations withVectors withoutVectors =>
    some (key, mutations, withVectors, withoutVectors)
  | .encoded key mutations withVectors withoutVectors _ =>
    some (key, mutations, withVectors, withoutVectors)
  | .idle => none

/-- Whoever subscribes to a topic that is being broadcast to has a policy that was counted. -/
def InTime (h : Hub ι) : HubAction ι → Prop
  | .subscribeKeys keys vectors => ∀ i key mutations withVectors withoutVectors,
      (h.fanOut i).pending = some (key, mutations, withVectors, withoutVectors) →
        key ∈ dedupeKeys keys →
        Wanted mutations withVectors withoutVectors vectors
  | _ => True

structure Pending (h : Hub ι) (key : String) (mutations : List RecordMutation)
  (withVectors withoutVectors : ℕ) : Prop where
  counted : ¬ (withVectors = 0 ∧ withoutVectors = 0)
  wanted : ∀ sub ∈ h.subs key, Wanted mutations withVectors withoutVectors (h.vectors sub)

def FanOutOk (h : Hub ι) : FanOut → Prop
  | .idle => True
  | .counted key mutations withVectors withoutVectors =>
    Pending h key mutations withVectors withoutVectors
  | .encoded key mutations withVectors withoutVectors frame =>
    Pending h key mutations withVectors withoutVectors ∧
      frame = encodeFrameVariants mutations (0 < withVectors) (0 < withoutVectors)

structure HubInv (h : Hub ι) : Prop where
  known : ∀ key, ∀ sub ∈ h.subs key, sub < h.next
  fresh : ∀ sub, h.next ≤ sub → h.delivered sub = []
  fanOut : ∀ i, FanOutOk h (h.fanOut i)
  policy : ∀ sub, ∀ d ∈ h.delivered sub, Policy (h.vectors sub) d

variable {h h' : Hub ι}

omit [DecidableEq ι] in
/-- What is known of calls in flight lasts as long as no unwanted subscriber comes. -/
theorem FanOutOk.mono {f : FanOut} (hok : FanOutOk h f)
    (hsubs : ∀ key mutations withVectors withoutVectors,
      f.pending = some (key, mutations, withVectors, withoutVectors) → ∀ sub ∈ h'.subs key,
      (sub ∈ h.subs key ∧ h'.vectors sub = h.vectors sub) ∨
      Wanted mutations withVectors withoutVectors (h'.vectors sub)) : FanOutOk h' f := by
  have hpending : ∀ key mutations withVectors withoutVectors,
      f.pending = some (key, mutations, withVectors, withoutVectors) →
        Pending h key mutations withVectors withoutVectors →
          Pending h' key mutations withVectors withoutVectors := by
    intro key mutations withVectors withoutVectors hf hp
    refine ⟨hp.counted, fun sub hsub => ?_⟩
    rcases hsubs key mutations withVectors withoutVectors hf sub hsub with ⟨hmem, heq⟩ | hwanted
    · rw [heq]
      exact hp.wanted sub hmem
    · exact hwanted
  cases f with
  | idle => trivial
  | counted => exact hpending _ _ _ _ rfl hok
  | encoded => exact ⟨hpending _ _ _ _ rfl hok.1, hok.2⟩

theorem HubInv.advance (hinv : HubInv h) {i : ι} {f : FanOut} (hf : FanOutOk h f) :
    HubInv { h with fanOut := Function.update h.fanOut i f } := by
  refine ⟨hinv.known, hinv.fresh, ?_, hinv.policy⟩
  refine (Function.forall_update_iff h.fanOut fun _ g =>
    FanOutOk { h with fanOut := Function.update h.fanOut i f } g).mpr ?_
  exact ⟨hf.mono fun _ _ _ _ _ _ hsub => .inl ⟨hsub, rfl⟩,
    fun j _ => (hinv.fanOut j).mono fun _ _ _ _ _ _ hsub => .inl ⟨hsub, rfl⟩⟩

theorem HubInv.step {a : HubAction ι} (hinv : HubInv h) (htime : InTime h a)
    (hs : h.step a = some h') : HubInv h' := by
  cases a with
  | subscribeKeys keys vectors =>
    cases hs
    have hold : ∀ sub, sub ≠ h.next → Function.update h.vectors h.next vectors sub =
        h.vectors sub := fun sub hne =>
      Function.update_of_ne hne _ _
    refine ⟨fun key sub hsub => ?_, fun sub hsub => ?_, fun i => ?_, fun sub d hd => ?_⟩
    · dsimp only at hsub ⊢
      split_ifs at hsub
      · rcases List.mem_append.mp hsub with hsub | hsub
        · exact (hinv.known key sub hsub).trans (Nat.lt_succ_self _)
        · rw [List.mem_singleton.mp hsub]
          exact Nat.lt_succ_self _
      · exact (hinv.known key sub hsub).trans (Nat.lt_succ_self _)
    · exact hinv.fresh sub (Nat.le_of_succ_le hsub)
    · refine (hinv.fanOut i).mono fun key mutations withV withoutV hf sub hsub => ?_
      dsimp only at hsub ⊢
      split_ifs at hsub with hkey
      · rcases List.mem_append.mp hsub with hsub | hsub
        · exact .inl ⟨hsub, hold sub (hinv.known key sub hsub).ne⟩
        · rw [List.mem_singleton.mp hsub, Function.update_self]
          exact .inr (htime i key mutations withV withoutV hf hkey)
      · exact .inl ⟨hsub, hold sub (hinv.known key sub hsub).ne⟩
    · have hne : sub ≠ h.next := fun heq => by
        have hempty := hinv.fresh sub heq.ge
        rw [hempty] at hd
        cases hd
      dsimp only
      rw [hold sub hne]
      exact hinv.policy sub d hd
  | cancel sub =>
    cases hs
    refine ⟨fun key s hsub => hinv.known key s (List.mem_of_mem_filter hsub), hinv.fresh,
      fun i => ?_, hinv.policy⟩
    exact (hinv.fanOut i).mono fun key _ _ _ _ s hsub => .inl ⟨List.mem_of_mem_filter hsub, rfl⟩
  | count i key mutations =>
    rw [Hub.step] at hs
    cases hi : h.fanOut i with
    | counted | encoded =>
      rw [hi] at hs
      cases hs
    | idle =>
      simp only [hi] at hs
      split_ifs at hs with hzero
      · exact Option.some.inj hs ▸ hinv
      · cases hs
        refine hinv.advance ⟨hzero, fun sub hsub => .inl ?_⟩
        cases hv : h.vectors sub with
        | true => exact List.countP_pos_iff.mpr ⟨sub, hsub, hv⟩
        | false => exact List.countP_pos_iff.mpr ⟨sub, hsub, by rw [hv]; rfl⟩
  | encode i fails =>
    rw [Hub.step] at hs
    cases hi : h.fanOut i with
    | idle | encoded =>
      rw [hi] at hs
      cases hs
    | counted key mutations withV withoutV =>
      rw [hi] at hs
      cases hs
      have hok := hinv.fanOut i
      rw [hi] at hok
      refine hinv.advance ?_
      split_ifs
      · trivial
      · exact ⟨hok, rfl⟩
  | broadcast i full =>
    rw [Hub.step] at hs
    cases hi : h.fanOut i with
    | idle | counted =>
      rw [hi] at hs
      cases hs
    | encoded key mutations withV withoutV frame =>
      rw [hi] at hs
      cases hs
      have hok := hinv.fanOut i
      rw [hi] at hok
      have hidle := hinv.advance (i := i) (f := .idle) trivial
      refine ⟨hidle.known, fun sub hsub => ?_, fun j => ?_, fun sub d hd => ?_⟩
      · dsimp only
        rw [if_neg fun hmem => absurd (hinv.known key sub hmem.1) (not_lt.mpr hsub)]
        exact hinv.fresh sub hsub
      · exact (hidle.fanOut j).mono fun _ _ _ _ _ _ hsub => .inl ⟨hsub, rfl⟩
      · dsimp only at hd ⊢
        split_ifs at hd with hmem
        · rcases List.mem_append.mp hd with hd | hd
          · exact hinv.policy sub d hd
          · rw [List.mem_singleton.mp hd, hok.2]
            exact policy_deliver (hok.1.wanted sub hmem.1) hok.1.counted
        · exact hinv.policy sub d hd

/-- Where no subscriber comes with a policy that was not counted, every one is sent what its policy
says. -/
theorem vector_policy_holds (h : Hub ι) (hreached : Reached Hub.step InTime {} h) (sub : ℕ)
    (d : Delivery) (hd : d ∈ h.delivered sub) : Policy (h.vectors sub) d := by
  have hinv : HubInv h := by
    refine hreached.invariant ⟨?_, fun _ _ => rfl, fun _ => trivial, ?_⟩ fun _ _ _ htime hs hinv =>
      hinv.step htime hs
    · rintro key sub ⟨⟩
    · rintro sub d ⟨⟩
  exact hinv.policy sub d hd

def embedded : RecordMutation where
  operation := .upsert
  version := 1
  domain := "docs"
  collection := "page"
  organizationID := "org"
  recordID := "p-1"
  fields := []
  vector := [0x3F800000]
  createdAt := none
  updatedAt := none

/-- The last of two subscribers excludes vectors. The frame of the record reaches both, and it is
sent the vectors that are given. -/
def sentToLast (vectors : List (List UInt32)) (h : Hub Unit) : Bool :=
  decide (h.vectors 1 = false ∧
    ((h.delivered 1).map fun d => d.envelope.map fun ms => ms.map RecordMutation.vector) =
      [some vectors])

theorem exists_delivery {vectors : List (List UInt32)} {h : Hub Unit}
    (hsent : sentToLast vectors h = true) :
    h.vectors 1 = false ∧ ∃ d ∈ h.delivered 1, ∃ ms, d.envelope = some ms ∧
      ms.map RecordMutation.vector = vectors := by
  obtain ⟨hv, hmap⟩ := of_decide_eq_true hsent
  obtain ⟨d, hd, henvelope⟩ := List.map_eq_singleton_iff.mp hmap
  obtain ⟨ms, hms, hvec⟩ := Option.map_eq_some_iff.mp henvelope
  exact ⟨hv, d, by rw [hd]; exact List.mem_singleton_self d, ms, hms, hvec⟩

/-- It subscribes between the count and the broadcast. -/
theorem late_subscriber_sent_vectors :
    ∃ h : Hub Unit, Reached Hub.step (fun _ _ => True) {} h ∧ ∃ d ∈ h.delivered 1,
      ¬ Policy (h.vectors 1) d := by
  obtain ⟨h, hreached, hsent⟩ :=
    Reached.exists_of_run Hub.step (C := fun _ _ => True) (fun _ _ => true)
    (sentToLast [[0x3F800000]]) {}
    [.subscribeKeys ["k"] true, .count () "k" [embedded], .encode () false,
      .subscribeKeys ["k"] false,
      .broadcast () fun _ => false] (fun _ _ _ => trivial) (by decide +kernel) (by decide +kernel)
  obtain ⟨hv, d, hd, ms, hms, hvec⟩ := exists_delivery hsent
  refine ⟨h, hreached, d, hd, ?_⟩
  rw [hv]
  rintro ⟨ms', hms', hplain⟩
  obtain rfl := Option.some.inj (hms.symm.trans hms')
  obtain ⟨m, rfl, hm⟩ := List.map_eq_singleton_iff.mp hvec
  have hempty := hplain m (List.mem_singleton_self m)
  rw [hm] at hempty
  cases hempty

def quiet (h : Hub Unit) : HubAction Unit → Bool
  | .subscribeKeys _ _ => (h.fanOut ()).pending.isNone
  | _ => true

theorem inTime_of_quiet (h : Hub Unit) (a : HubAction Unit) (hquiet : quiet h a = true) :
    InTime h a := by
  cases a with
  | subscribeKeys keys vectors =>
    intro _ _ _ _ _ hpending
    rw [quiet, hpending] at hquiet
    cases hquiet
  | cancel | count | encode | broadcast => trivial

/-- It subscribes before the count. -/
theorem early_subscriber_sent_no_vectors :
    ∃ h : Hub Unit, Reached Hub.step InTime {} h ∧ h.vectors 1 = false ∧ ∃ d ∈ h.delivered 1,
      Policy false d := by
  obtain ⟨h, hreached, hsent⟩ := Reached.exists_of_run Hub.step quiet (sentToLast [[]]) {}
    [.subscribeKeys ["k"] true, .subscribeKeys ["k"] false, .count () "k" [embedded],
      .encode () false,
      .broadcast () fun _ => false] inTime_of_quiet (by decide +kernel) (by decide +kernel)
  obtain ⟨hv, d, hd, -⟩ := exists_delivery hsent
  exact ⟨h, hreached, hv, d, hd, hv ▸ vector_policy_holds h hreached 1 d hd⟩

end Foundation.Projectiongw
