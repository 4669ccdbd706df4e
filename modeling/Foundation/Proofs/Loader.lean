import Foundation.Lib.FairExecutions
import Foundation.Spec.Loader
import Mathlib.Data.Set.Card

/-! Shared loads: one for each key, bounded in number and in waiters, cancelled exactly when nobody
waits, their time is up or they are done; and a caller that has something to return for returns. -/

namespace Foundation.Loader

variable {Ty Val : Type} {policy : LoadPolicy} {s s' : State Ty Val} {caller id : ℕ}

/-! ### Who holds a load -/

/-- The load a caller has joined and not released. -/
def Phase.held : Phase Ty Val → Option ℕ
  | .waiting j | .leaving j _ => some j.id
  | .idle | .looking _ _ | .acquiring _ _ | .returned _ _ => none

def State.holders (s : State Ty Val) (id : ℕ) : Set ℕ := {caller | (s.phase caller).held = some id}

def Known (s : State Ty Val) (j : Joined Ty) : Prop :=
  j.id < s.next ∧ (s.calls j.id).key = j.key ∧ j.alive = true

def Delivered (s : State Ty Val) (j : Joined Ty) (v : Val) : Prop :=
  (s.calls j.id).runner = .finished ∧ (s.calls j.id).value = some (j.ty, v) ∧
    (s.calls j.id).err = none

def OutcomeOk (s : State Ty Val) (j : Joined Ty) (outcome : Outcome Val) : Prop :=
  Known s j ∧ ∀ v, outcome = .value v → Delivered s j v

def PhaseOk (s : State Ty Val) : Phase Ty Val → Prop
  | .waiting j => Known s j
  | .leaving j outcome | .returned (some j) outcome => OutcomeOk s j outcome
  | .idle | .looking _ _ | .acquiring _ _ | .returned none _ => True

def CancelOk (call : LoadCall Ty Val) : Prop :=
  call.ctx ≠ none ↔ call.waiters = 0 ∨ call.timedOut = true ∨ call.runner = .finished

structure Inv (policy : LoadPolicy) (s : State Ty Val) : Prop where
  loads : ∀ key id, s.loads.lookup key = some id ↔
    id < s.next ∧ (s.calls id).key = key ∧ (s.calls id).runner ≠ .finished
  inflight : (s.loads.keys.card : ℤ) ≤ policy.maxInflight
  count : ∀ id, (s.holders id).encard = (s.calls id).waiters
  bound : ∀ id, ((s.calls id).waiters : ℤ) ≤ policy.maxWaiters
  phases : ∀ caller, PhaseOk s (s.phase caller)
  cancelled : ∀ id < s.next, CancelOk (s.calls id)

theorem calls_setCall (s : State Ty Val) (id : ℕ) (call : LoadCall Ty Val) (x : ℕ) :
    (s.setCall id call).calls x = if x = id then call else s.calls x :=
  Function.update_apply s.calls id call x

variable {p : Phase Ty Val} {call : LoadCall Ty Val} {key : String} {ty : Ty} {e : Event Ty Val}

theorem holders_joined (hp : p.held = some id) :
    (s.goTo caller p).holders id = insert caller (s.holders id) := by
  ext x
  by_cases hx : x = caller
  · subst hx
    simp [State.holders, State.goTo, hp]
  · simp [State.holders, State.goTo, hx]

theorem holders_left (hp : p.held ≠ some id) :
    (s.goTo caller p).holders id = s.holders id \ {caller} := by
  ext x
  by_cases hx : x = caller
  · subst hx
    simp [State.holders, State.goTo, hp]
  · simp [State.holders, State.goTo, hx]

theorem holders_elsewhere (hp : p.held ≠ some id) (hold : (s.phase caller).held ≠ some id) :
    (s.goTo caller p).holders id = s.holders id := by
  have hnot : caller ∉ s.holders id := hold
  rw [holders_left hp, Set.sdiff_singleton_eq_self hnot]

theorem Inv.held_lt (h : Inv policy s) (hheld : (s.phase caller).held = some id) : id < s.next := by
  have hp := h.phases caller
  cases hphase : s.phase caller with
  | waiting j =>
    rw [hphase] at hheld hp
    exact Option.some.inj hheld ▸ hp.1
  | leaving j outcome =>
    rw [hphase] at hheld hp
    exact Option.some.inj hheld ▸ hp.1.1
  | _ => simp [hphase, Phase.held] at hheld

/-! ### Steps that move only a caller, or only a load -/

theorem Inv.goTo (h : Inv policy s) (hheld : p.held = (s.phase caller).held) (hp : PhaseOk s p) :
    Inv policy (s.goTo caller p) := by
  refine ⟨h.loads, h.inflight, fun id => ?_, h.bound, ?_, h.cancelled⟩
  · have hsame : (s.goTo caller p).holders id = s.holders id := by
      by_cases hid : (s.phase caller).held = some id
      · rw [holders_joined (hheld.trans hid)]
        exact Set.insert_eq_of_mem hid
      · exact holders_elsewhere (hheld ▸ hid) hid
    rw [hsame]
    exact h.count id
  · exact (Function.forall_update_iff s.phase (p := fun _ p => PhaseOk s p)).mpr ⟨hp,
      fun other _ => h.phases other⟩

/-- What a caller knows stays true when calls keep their keys, and finished ones their results. -/
theorem PhaseOk.mono (h : PhaseOk s p) (hnext : s.next ≤ s'.next)
    (hkey : ∀ id < s.next, (s'.calls id).key = (s.calls id).key)
    (hdone : ∀ id < s.next, (s.calls id).runner = .finished → (s'.calls id).runner = .finished ∧
      (s'.calls id).value = (s.calls id).value ∧ (s'.calls id).err = (s.calls id).err) :
    PhaseOk s' p := by
  have hknown : ∀ j, Known s j → Known s' j := fun j hj =>
    ⟨hj.1.trans_le hnext, (hkey j.id hj.1).trans hj.2.1, hj.2.2⟩
  have houtcome : ∀ j outcome, OutcomeOk s j outcome → OutcomeOk s' j outcome := by
    intro j outcome ⟨hj, hv⟩
    refine ⟨hknown j hj, fun v heq => ?_⟩
    obtain ⟨hfinished, hvalue, herr⟩ := hv v heq
    obtain ⟨hfinished', hvalue', herr'⟩ := hdone j.id hj.1 hfinished
    exact ⟨hfinished', hvalue'.trans hvalue, herr'.trans herr⟩
  cases p with
  | idle | looking | acquiring => trivial
  | waiting j => exact hknown j h
  | leaving j outcome => exact houtcome j outcome h
  | returned j outcome =>
    cases j with
    | none => trivial
    | some j => exact houtcome j outcome h

theorem Inv.setCall (h : Inv policy s) (hkey : call.key = (s.calls id).key)
    (hwaiters : call.waiters = (s.calls id).waiters) (hold : (s.calls id).runner ≠ .finished)
    (hrunner : call.runner ≠ .finished) (hcancel : CancelOk call) :
    Inv policy (s.setCall id call) := by
  have hcalls := calls_setCall s id call
  refine ⟨fun key x => ?_, h.inflight, fun x => ?_, fun x => ?_,
    fun c => (h.phases c).mono le_rfl ?_ ?_, fun x hx => ?_⟩
  · change s.loads.lookup key = some x ↔ x < s.next ∧ _
    rw [h.loads, hcalls]
    split_ifs with hx
    · simp [hx, hkey, hold, hrunner]
    · rfl
  · change (s.holders x).encard = _
    rw [h.count, hcalls]
    split_ifs with hx
    · rw [hx, hwaiters]
    · rfl
  · rw [hcalls]
    split_ifs with hx
    · rw [hwaiters]
      exact h.bound id
    · exact h.bound x
  · intro x _
    rw [hcalls]
    split_ifs with hx
    · rw [hx, hkey]
    · rfl
  · intro x _ hfinished
    rw [hcalls, if_neg]
    · exact ⟨hfinished, rfl, rfl⟩
    · rintro rfl
      exact hold hfinished
  · rw [hcalls]
    split_ifs
    · exact hcancel
    · exact h.cancelled x hx

theorem cancelOk_cancel (h : call.waiters = 0 ∨ call.timedOut = true ∨ call.runner = .finished) :
    CancelOk call.cancel :=
  iff_of_true (by simp [LoadCall.cancel]) h

/-! ### Joining and leaving -/

theorem Inv.recount (h : Inv policy s)
    (hsame : call.key = (s.calls id).key ∧ call.runner = (s.calls id).runner ∧
      call.value = (s.calls id).value ∧ call.err = (s.calls id).err)
    (hcount : ((s.goTo caller p).holders id).encard = call.waiters)
    (hothers : ∀ x, x ≠ id → p.held ≠ some x ∧ (s.phase caller).held ≠ some x)
    (hbound : (call.waiters : ℤ) ≤ policy.maxWaiters) (hcancel : CancelOk call) (hp : PhaseOk s p) :
    Inv policy ((s.setCall id call).goTo caller p) := by
  have hcalls : ∀ x, ((s.setCall id call).goTo caller p).calls x = if x = id then
      call else s.calls x :=
    calls_setCall s id call
  have hmono : ∀ q, PhaseOk s q → PhaseOk ((s.setCall id call).goTo caller p) q := by
    refine fun q hq => hq.mono le_rfl (fun x _ => ?_) fun x _ hfinished => ?_
    · rw [hcalls]
      split_ifs with hx
      · rw [hx, hsame.1]
      · rfl
    · rw [hcalls]
      split_ifs with hx
      · subst hx
        exact ⟨hsame.2.1.trans hfinished, hsame.2.2⟩
      · exact ⟨hfinished, rfl, rfl⟩
  refine ⟨fun key x => ?_, h.inflight, fun x => ?_, fun x => ?_, fun c => hmono _ ?_,
    fun x hx => ?_⟩
  · change s.loads.lookup key = some x ↔ x < s.next ∧ _
    rw [h.loads, hcalls]
    split_ifs with hx
    · rw [hx, hsame.1, hsame.2.1]
    · rfl
  · rw [hcalls]
    change ((s.goTo caller p).holders x).encard = _
    split_ifs with hx
    · rw [hx, hcount]
    · obtain ⟨hp, hold⟩ := hothers x hx
      rw [holders_elsewhere hp hold, h.count]
  · rw [hcalls]
    split_ifs
    · exact hbound
    · exact h.bound x
  · exact (Function.forall_update_iff s.phase (p := fun _ p => PhaseOk s p)).mpr ⟨hp,
      fun other _ => h.phases other⟩ c
  · rw [hcalls]
    split_ifs
    · exact hcancel
    · exact h.cancelled x hx

theorem Inv.join (h : Inv policy s) (hfree : (s.phase caller).held = none)
    (hload : s.loads.lookup key = some id) (hctx : (s.calls id).ctx = none)
    (hroom : ((s.calls id).waiters : ℤ) < policy.maxWaiters) :
    Inv policy ((s.setCall id { s.calls id with waiters := (s.calls id).waiters + 1 }).goTo caller
      (.waiting ⟨id, key, ty, (s.calls id).runner ≠ .finished⟩)) := by
  obtain ⟨hid, hkey, hrunner⟩ := (h.loads key id).mp hload
  have hopen := (h.cancelled id hid).not.mp (not_not.mpr hctx)
  refine h.recount ⟨rfl, rfl, rfl, rfl⟩ ?_ (fun x hx => ⟨?_, by simp [hfree]⟩) ?_ ?_ ?_
  · have hnot : caller ∉ s.holders id := by simp [State.holders, hfree]
    rw [holders_joined rfl, Set.encard_insert_of_notMem hnot, h.count]
    rfl
  · exact fun heq => hx (Option.some.inj heq).symm
  · change ((s.calls id).waiters + 1 : ℕ) ≤ policy.maxWaiters
    omega
  · refine iff_of_false (not_not.mpr hctx) fun hcancel => hopen ?_
    exact .inr (hcancel.resolve_left (Nat.succ_ne_zero _))
  · exact ⟨hid, hkey, decide_eq_true hrunner⟩

theorem Inv.release (h : Inv policy s) {j : Joined Ty} {outcome : Outcome Val}
    (hphase : s.phase caller = .leaving j outcome) :
    Inv policy ((releaseLoad s j.id).goTo caller (.returned (some j) outcome)) := by
  have hok : OutcomeOk s j outcome := by
    have hp := h.phases caller
    rwa [hphase] at hp
  have hmem : caller ∈ s.holders j.id := by simp [State.holders, hphase, Phase.held]
  have hpos : 0 < (s.calls j.id).waiters := by
    have hne : (s.holders j.id).encard ≠ 0 := Set.encard_ne_zero_of_mem hmem
    rw [h.count] at hne
    exact Nat.pos_of_ne_zero fun hzero => hne (by rw [hzero]; rfl)
  have hbound := h.bound j.id
  have hcancelled := h.cancelled j.id hok.1.1
  have hcount : ((s.goTo caller (.returned (some j) outcome)).holders j.id).encard =
      ((s.calls j.id).waiters - 1 : ℕ) := by
    rw [holders_left (by simp [Phase.held]), Set.encard_sdiff_singleton_of_mem hmem, h.count]
    rfl
  rw [releaseLoad]
  refine h.recount ?_ ?_ (fun x hx => ⟨by simp [Phase.held], ?_⟩) ?_ ?_ hok
  · split_ifs <;> exact ⟨rfl, rfl, rfl, rfl⟩
  · split_ifs <;> exact hcount
  · rw [hphase]
    exact fun heq => hx (Option.some.inj heq).symm
  · have hless : (((s.calls j.id).waiters - 1 : ℕ) : ℤ) ≤ policy.maxWaiters := by omega
    split_ifs <;> exact hless
  · split_ifs with hzero
    · exact cancelOk_cancel (.inl hzero)
    · exact hcancelled.trans (or_congr (iff_of_false hpos.ne' hzero) Iff.rfl)

theorem Inv.start (h : Inv policy s) (hfree : (s.phase caller).held = none)
    (hload : s.loads.lookup key = none) (hroom : (s.loads.keys.card : ℤ) < policy.maxInflight)
    (hwaiters : 0 < policy.maxWaiters) :
    Inv policy ({ s.setCall s.next { key, waiters := 1 } with
      loads := s.loads.insert key s.next, next :=
        s.next + 1 }.goTo caller (.waiting ⟨s.next, key, ty, true⟩)) := by
  set s' := { s.setCall s.next { key, waiters := 1 } with
      loads := s.loads.insert key s.next, next :=
        s.next + 1 }.goTo caller (.waiting ⟨s.next, key, ty, true⟩)
  have hcalls : ∀ x, s'.calls x = if x = s.next then { key, waiters := 1 } else s.calls x :=
    calls_setCall s s.next _
  have hmono : ∀ q, PhaseOk s q → PhaseOk s' q := by
    refine fun q hq => hq.mono (Nat.le_succ _) (fun x hx => ?_) fun x hx hfinished => ?_
    · rw [hcalls, if_neg hx.ne]
    · rw [hcalls, if_neg hx.ne]
      exact ⟨hfinished, rfl, rfl⟩
  have hnone : s.holders s.next = ∅ := by
    refine Set.eq_empty_of_forall_notMem fun c hc => ?_
    exact absurd (h.held_lt hc) (lt_irrefl _)
  refine ⟨fun key' x => ?_, ?_, fun x => ?_, fun x => ?_, ?_, fun x hx => ?_⟩
  · change (s.loads.insert key s.next).lookup key' = some x ↔ x < s.next + 1 ∧ _
    rw [GoMap.lookup_insert_if, hcalls]
    by_cases hx : x = s.next
    · subst hx
      have hnot : ¬s.loads.lookup key' = some s.next :=
        fun hl => lt_irrefl _ ((h.loads _ _).mp hl).1
      by_cases hk : key' = key
      · simp [hk]
      · simp [hk, hnot, Ne.symm hk]
    · have hlt : x < s.next + 1 ↔ x < s.next := by omega
      rw [if_neg hx, hlt, ← h.loads]
      split_ifs with hk
      · rw [hk, hload]
        exact iff_of_false (fun heq => hx (Option.some.inj heq).symm) (by simp)
      · rfl
  · change ((s.loads.insert key s.next).keys.card : ℤ) ≤ _
    have hcard := Finset.card_insert_le key s.loads.keys
    rw [GoMap.keys_insert]
    omega
  · rw [hcalls]
    change ((s.goTo caller (.waiting ⟨s.next, key, ty, true⟩)).holders x).encard = _
    have hheld : (Phase.waiting ⟨s.next, key, ty, true⟩ : Phase Ty Val).held = some s.next := rfl
    split_ifs with hx
    · rw [hx, holders_joined hheld, hnone]
      simp
    · have hp : (Phase.waiting ⟨s.next, key, ty, true⟩ : Phase Ty Val).held ≠ some x := by
        rw [hheld]
        exact fun heq => hx (Option.some.inj heq).symm
      rw [holders_elsewhere hp (by simp [hfree]), h.count]
  · rw [hcalls]
    split_ifs
    · exact hwaiters
    · exact h.bound x
  · refine (Function.forall_update_iff s.phase (p := fun _ p => PhaseOk s' p)).mpr ⟨?_,
      fun other _ => ?_⟩
    · refine ⟨Nat.lt_succ_self _, ?_, rfl⟩
      rw [hcalls, if_pos rfl]
    · exact hmono _ (h.phases other)
  · rw [hcalls]
    split_ifs with hne
    · exact iff_of_false (by simp) (by simp)
    · exact h.cancelled x (lt_of_le_of_ne (Nat.lt_succ_iff.mp hx) hne)

theorem Inv.finish (h : Inv policy s) (hid : id < s.next) (hran : (s.calls id).runner = .ran) :
    Inv policy { s.setCall id { s.calls id with runner := .finished }.cancel with
      loads := s.loads.erase (s.calls id).key } := by
  set s' := { s.setCall id { s.calls id with runner := .finished }.cancel with
      loads := s.loads.erase (s.calls id).key }
  have hload : s.loads.lookup (s.calls id).key = some id :=
    (h.loads _ _).mpr ⟨hid, rfl, by simp [hran]⟩
  have hcalls : ∀ x, s'.calls x = if x = id then { s.calls id with runner := .finished }.cancel
    else s.calls x :=
    calls_setCall s id _
  refine ⟨fun key x => ?_, ?_, fun x => ?_, fun x => ?_, fun c => (h.phases c).mono le_rfl ?_ ?_,
    fun x hx => ?_⟩
  · change (s.loads.erase (s.calls id).key).lookup key = some x ↔ x < s.next ∧ _
    rw [GoMap.lookup_erase_if, hcalls]
    by_cases hx : x = id
    · subst hx
      rw [if_pos rfl]
      refine iff_of_false (fun hl => ?_) (by simp [LoadCall.cancel])
      split_ifs at hl with hk
      exact hk ((h.loads _ _).mp hl).2.1.symm
    · rw [if_neg hx, ← h.loads]
      split_ifs with hk
      · rw [hk, hload]
        exact iff_of_false (by simp) fun heq => hx (Option.some.inj heq).symm
      · rfl
  · change ((s.loads.erase (s.calls id).key).keys.card : ℤ) ≤ _
    have hsub : (s.loads.erase (s.calls id).key).keys ⊆ s.loads.keys := by
      intro k hk
      obtain ⟨v, hv⟩ := (GoMap.mem_keys_iff _ k).mp hk
      rw [GoMap.lookup_erase_if] at hv
      split_ifs at hv
      exact (GoMap.mem_keys_iff _ k).mpr ⟨v, hv⟩
    have hcard := Finset.card_le_card hsub
    have := h.inflight
    omega
  · rw [hcalls]
    change (s.holders x).encard = _
    rw [h.count]
    split_ifs with hx
    · rw [hx]
      rfl
    · rfl
  · rw [hcalls]
    split_ifs
    · exact h.bound id
    · exact h.bound x
  · intro x _
    rw [hcalls]
    split_ifs with hx
    · rw [hx]
      rfl
    · rfl
  · intro x _ hfinished
    rw [hcalls, if_neg]
    · exact ⟨hfinished, rfl, rfl⟩
    · rintro rfl
      exact absurd hfinished (by simp [hran])
  · rw [hcalls]
    split_ifs
    · exact cancelOk_cancel (.inr (.inr rfl))
    · exact h.cancelled x hx

/-! ### What a step can do -/

/-- The caller that makes a move; a load, a context and a new call move by themselves. -/
def Event.caller? : Event Ty Val → Option ℕ
  | .look caller _ | .acquire caller | .wake caller _ | .release caller => some caller
  | .call _ _ _ | .endContext _ _ | .run _ _ _ | .crash _ | .finish _ | .timeout _ => none

/-- A load that was done or cancelled stays so. -/
def Lasts (old new : LoadCall Ty Val) : Prop :=
  (old.runner = .finished → new.runner = .finished) ∧ (old.ctx ≠ none → new.ctx ≠ none)

/-- A caller goes on, joins a load, starts one or releases it, its context ends, or a load goes on
or finishes. -/
inductive Moved (policy : LoadPolicy) (s : State Ty Val) (e : Event Ty Val) : State Ty Val → Prop
  | goes {caller : ℕ} {p : Phase Ty Val} (he : s.phase caller = .idle ∨ e.caller? = some caller)
      (hheld : p.held = (s.phase caller).held) (hp : PhaseOk s (s.phase caller) → PhaseOk s p) :
      Moved policy s e (s.goTo caller p)
  | joins {caller id : ℕ} {key : String} {ty : Ty} (he : e.caller? = some caller)
      (hfree : (s.phase caller).held = none) (hload : s.loads.lookup key = some id)
        (hctx : (s.calls id).ctx = none)
      (hroom : ((s.calls id).waiters : ℤ) < policy.maxWaiters) :
      Moved policy s e
        ((s.setCall id { s.calls id with waiters := (s.calls id).waiters + 1 }).goTo caller
        (.waiting ⟨id, key, ty, (s.calls id).runner ≠ .finished⟩))
  | starts {caller : ℕ} {key : String} {ty : Ty} (he : e.caller? = some caller)
      (hfree : (s.phase caller).held = none) (hload : s.loads.lookup key = none)
      (hroom : (s.loads.keys.card : ℤ) < policy.maxInflight) :
      Moved policy s e ({ s.setCall s.next { key, waiters := 1 } with
        loads := s.loads.insert key s.next, next :=
          s.next + 1 }.goTo caller (.waiting ⟨s.next, key, ty, true⟩))
  | releases {caller : ℕ} {j : Joined Ty} {outcome : Outcome Val} (he : e.caller? = some caller)
      (hphase : s.phase caller = .leaving j outcome) :
      Moved policy s e ((releaseLoad s j.id).goTo caller (.returned (some j) outcome))
  | ends {caller : ℕ} {err : ContextError} (hnone : s.ended caller = none) :
      Moved policy s e { s with ended := Function.update s.ended caller (some err) }
  | sets {id : ℕ} {call : LoadCall Ty Val} (hid : id < s.next) (hkey : call.key = (s.calls id).key)
      (hwaiters : call.waiters = (s.calls id).waiters) (hlasts : Lasts (s.calls id) call)
      (hcancel : CancelOk (s.calls id) →
        (s.calls id).runner ≠ .finished ∧ call.runner ≠ .finished ∧ CancelOk call) :
      Moved policy s e (s.setCall id call)
  | finishes {id : ℕ} (hid : id < s.next) (hran : (s.calls id).runner = .ran) :
      Moved policy s e { s.setCall id { s.calls id with runner := .finished }.cancel with
        loads := s.loads.erase (s.calls id).key }

theorem acquireLoad_moved (he : e.caller? = some caller)
    (hphase : s.phase caller = .acquiring key ty) :
    Moved policy s e (acquireLoad policy s caller key ty) := by
  have hfree : (s.phase caller).held = none := by rw [hphase, Phase.held]
  have hbusy : Moved policy s e (s.goTo caller (.returned none (.error .busy))) :=
    .goes (.inr he) hfree.symm fun _ => trivial
  unfold acquireLoad
  split
  next id hload =>
    dsimp only
    split_ifs with hfull
    · exact hbusy
    · rw [not_or, not_not, not_le] at hfull
      exact .joins he hfree hload hfull.1 hfull.2
  next hload =>
    split_ifs with hfull
    · exact hbusy
    · exact .starts he hfree hload (not_le.mp hfull)

/-- A load that has returned or panicked has still to finish. -/
theorem ran_moved (hrun : id < s.next ∧ (s.calls id).runner = .running) (value : Option (Ty × Val))
    (err : Option LoadError) :
    Moved policy s e
      (s.setCall id { s.calls id with runner := .ran, value := value, err := err }) := by
  refine .sets hrun.1 rfl rfl ⟨fun hf => absurd hf (by simp [hrun.2]), fun hc => hc⟩
    fun hcancel => ?_
  refine ⟨by simp [hrun.2], by simp, ?_⟩
  simpa [CancelOk, hrun.2] using hcancel

section

variable [DecidableEq Ty]

/-- A value is returned only from a load that is done. -/
theorem wakeOutcome_ok {j : Joined Ty} {ready : Ready} {outcome : Outcome Val} (hj : Known s j)
    (h : wakeOutcome (s.calls j.id) (s.ended caller) j.ty ready = some outcome) :
    OutcomeOk s j outcome := by
  have hresult : (s.calls j.id).runner = .finished →
      ∀ v, (s.calls j.id).result (s.ended caller) j.ty = .value v →
      Delivered s j v := by
    intro hfinished v hv
    unfold LoadCall.result at hv
    split at hv
    · exact absurd hv (by simp)
    · exact absurd hv (by simp)
    · exact absurd hv (by simp)
    next herr hvalue =>
      split_ifs at hv with hty
      rw [hty, Outcome.value.inj hv] at hvalue
      exact ⟨hfinished, hvalue, herr⟩
  refine ⟨hj, fun v hv => ?_⟩
  subst hv
  cases ready with
  | own =>
    obtain ⟨e, -, he⟩ := Option.map_eq_some_iff.mp h
    exact absurd he (by simp)
  | load =>
    obtain ⟨e, -, he⟩ := Option.map_eq_some_iff.mp h
    split_ifs at he with hfinished
    exact hresult hfinished v he
  | done =>
    rw [wakeOutcome] at h
    split_ifs at h with hfinished
    exact hresult hfinished v (Option.some.inj h)

theorem step_moved (hs : step policy s e = some s') : Moved policy s e s' := by
  cases e with
  | call caller key ty =>
    rw [Loader.step] at hs
    split at hs <;> [skip; exact absurd hs (by simp)]
    next hphase =>
    rw [← Option.some.inj hs]
    exact .goes (.inl hphase) (by rw [hphase]; rfl) fun _ => trivial
  | look caller hit =>
    rw [Loader.step] at hs
    split at hs <;> [skip; exact absurd hs (by simp)]
    next hphase =>
    split at hs <;>
    · rw [← Option.some.inj hs]
      exact .goes (.inr rfl) (by rw [hphase]; rfl) fun _ => trivial
  | acquire caller =>
    rw [Loader.step] at hs
    split at hs <;> [skip; exact absurd hs (by simp)]
    next hphase =>
    rw [← Option.some.inj hs]
    exact acquireLoad_moved rfl hphase
  | wake caller ready =>
    rw [Loader.step] at hs
    split at hs <;> [skip; exact absurd hs (by simp)]
    next j hphase =>
    obtain ⟨outcome, houtcome, rfl⟩ := Option.map_eq_some_iff.mp hs
    refine .goes (.inr rfl) (by rw [hphase]; rfl) fun hj => ?_
    rw [hphase] at hj
    exact wakeOutcome_ok hj houtcome
  | release caller =>
    rw [Loader.step] at hs
    split at hs <;> [skip; exact absurd hs (by simp)]
    next hphase =>
    rw [← Option.some.inj hs]
    exact .releases rfl hphase
  | endContext caller e =>
    rw [Loader.step] at hs
    split_ifs at hs with hnone
    rw [← Option.some.inj hs]
    exact .ends hnone
  | run id value err =>
    rw [Loader.step] at hs
    split_ifs at hs with hrun
    rw [← Option.some.inj hs]
    exact ran_moved hrun value err
  | crash id =>
    rw [Loader.step] at hs
    split_ifs at hs with hrun
    rw [← Option.some.inj hs]
    exact ran_moved hrun _ _
  | finish id =>
    rw [Loader.step] at hs
    split_ifs at hs with hran
    rw [← Option.some.inj hs]
    exact .finishes hran.1 hran.2
  | timeout id =>
    rw [Loader.step] at hs
    split_ifs at hs with hopen
    rw [← Option.some.inj hs]
    refine .sets hopen.1 rfl rfl ⟨fun hf => hf, fun _ => by simp⟩ fun hcancel => ?_
    have hrunner : (s.calls id).runner ≠ .finished := fun hf => hcancel.mpr (.inr (.inr hf)) hopen.2
    exact ⟨hrunner, hrunner, iff_of_true (by simp) (.inr (.inl rfl))⟩

end

theorem Inv.moved (h : Inv policy s) (hwaiters : 0 < policy.maxWaiters) (hs : Moved policy s e s') :
    Inv policy s' := by
  cases hs with
  | goes _ hheld hp => exact h.goTo hheld (hp (h.phases _))
  | joins _ hfree hload hctx hroom => exact h.join hfree hload hctx hroom
  | starts _ hfree hload hroom => exact h.start hfree hload hroom hwaiters
  | releases _ hphase => exact h.release hphase
  | ends _ =>
    exact ⟨h.loads, h.inflight, h.count, h.bound, fun c => (h.phases c).mono le_rfl (fun _ _ => rfl)
      fun _ _ hf => ⟨hf, rfl, rfl⟩, h.cancelled⟩
  | sets hid hkey hwait _ hcancel =>
    obtain ⟨hold, hrunner, hok⟩ := hcancel (h.cancelled _ hid)
    exact h.setCall hkey hwait hold hrunner hok
  | finishes hid hran => exact h.finish hid hran

/-! ### What holds in every state -/

def Running (s : State Ty Val) (id : ℕ) : Prop := id < s.next ∧ (s.calls id).runner ≠ .finished

def WaitsOn (s : State Ty Val) (id caller : ℕ) : Prop :=
  ∃ j, s.phase caller = .waiting j ∧ j.id = id

/-- The bounds, what is delivered, and when a load is cancelled. -/
structure Safe (policy : LoadPolicy) (s : State Ty Val) : Prop where
  single : ∀ id id', Running s id → Running s id' → (s.calls id).key = (s.calls id').key → id = id'
  inflight : ∀ keys : Finset String, (∀ key ∈ keys, ∃ id, Running s id ∧ (s.calls id).key = key) →
    (keys.card : ℤ) ≤ policy.maxInflight
  waiters : ∀ id, {caller | WaitsOn s id caller}.encard ≤ policy.maxWaiters.toNat
  delivered : ∀ caller j v, s.phase caller = .returned (some j) (.value v) →
    (s.calls j.id).key = j.key ∧ j.alive = true ∧ Delivered s j v
  cancelled : ∀ id < s.next, (s.calls id).ctx ≠ none ↔
    (∀ caller, (s.phase caller).held ≠ some id) ∨ (s.calls id).timedOut = true ∨
      (s.calls id).runner = .finished

theorem Inv.safe (h : Inv policy s) : Safe policy s where
  single id id' hid hid' hkey := by
    have hload := (h.loads (s.calls id').key id).mpr ⟨hid.1, hkey, hid.2⟩
    have hload' := (h.loads (s.calls id').key id').mpr ⟨hid'.1, rfl, hid'.2⟩
    exact Option.some.inj (hload.symm.trans hload')
  inflight keys hkeys := by
    have hsub : keys ⊆ s.loads.keys := by
      intro key hkey
      obtain ⟨id, hid, hk⟩ := hkeys key hkey
      exact (GoMap.mem_keys_iff _ _).mpr ⟨id, (h.loads key id).mpr ⟨hid.1, hk, hid.2⟩⟩
    have hcard := Finset.card_le_card hsub
    have := h.inflight
    omega
  waiters id := by
    have hsub : {caller | WaitsOn s id caller} ⊆ s.holders id := by
      rintro caller ⟨j, hj, hid⟩
      exact (congrArg Phase.held hj).trans (congrArg some hid)
    have hbound : (s.calls id).waiters ≤ policy.maxWaiters.toNat := by
      have := h.bound id
      omega
    calc {caller | WaitsOn s id caller}.encard
      _ ≤ (s.holders id).encard := Set.encard_le_encard hsub
      _ = (s.calls id).waiters := h.count id
      _ ≤ policy.maxWaiters.toNat := by exact_mod_cast hbound
  delivered caller j v hphase := by
    have hp := h.phases caller
    rw [hphase] at hp
    exact ⟨hp.1.2.1, hp.1.2.2, hp.2 v rfl⟩
  cancelled id hid := by
    have hempty : (s.calls id).waiters = 0 ↔ ∀ caller, (s.phase caller).held ≠ some id := by
      have hcount := h.count id
      rw [← Nat.cast_eq_zero (R := ℕ∞), ← hcount, Set.encard_eq_zero,
        Set.eq_empty_iff_forall_notMem]
      rfl
    rw [← hempty]
    exact h.cancelled id hid

/-! ### Callers return -/

/-- One of the channels that the caller waits on is ready. -/
def Woken (s : State Ty Val) (caller : ℕ) : Prop :=
  ∃ j, s.phase caller = .waiting j ∧ j.id < s.next ∧
    ((s.calls j.id).runner = .finished ∨ (s.calls j.id).ctx ≠ none ∨ s.ended caller ≠ none)

def Leaves (s : State Ty Val) (caller : ℕ) : Prop :=
  ∃ j outcome, s.phase caller = .leaving j outcome

def Returned (s : State Ty Val) (caller : ℕ) : Prop :=
  ∃ j outcome, s.phase caller = .returned j outcome

/-- The callers that can go on by themselves. -/
def Able (s : State Ty Val) (caller : ℕ) : Prop :=
  (∃ key ty, s.phase caller = .looking key ty ∨ s.phase caller = .acquiring key ty) ∨
    Woken s caller ∨ Leaves s caller

theorem lasts_refl (call : LoadCall Ty Val) : Lasts call call := ⟨fun hf => hf, fun hc => hc⟩

theorem lasts_setCall (h : Lasts (s.calls id) call) (x : ℕ) :
    Lasts (s.calls x) ((s.setCall id call).calls x) := by
  rw [calls_setCall]
  split_ifs with hx
  · rw [hx]
    exact h
  · exact lasts_refl _

theorem lasts_cancel (h : (s.calls id).runner = .finished → call.runner = .finished) :
    Lasts (s.calls id) call.cancel :=
  ⟨h, fun _ => by simp [LoadCall.cancel]⟩

theorem Moved.lasts (hs : Moved policy s e s') (hid : id < s.next) :
    id < s'.next ∧ Lasts (s.calls id) (s'.calls id) := by
  cases hs with
  | goes | ends => exact ⟨hid, lasts_refl _⟩
  | joins =>
    refine ⟨hid, lasts_setCall (s := s) ?_ id⟩
    exact ⟨fun hf => hf, fun hc => hc⟩
  | starts =>
    refine ⟨Nat.lt_succ_of_lt hid, ?_⟩
    change Lasts _ ((s.setCall s.next _).calls id)
    rw [calls_setCall, if_neg hid.ne]
    exact lasts_refl _
  | releases =>
    refine ⟨hid, lasts_setCall (s := s) ?_ id⟩
    split_ifs
    · exact lasts_cancel fun hf => hf
    · exact ⟨fun hf => hf, fun hc => hc⟩
  | sets _ _ _ hlasts => exact ⟨hid, lasts_setCall hlasts id⟩
  | finishes => exact ⟨hid, lasts_setCall (s := s) (lasts_cancel fun _ => rfl) id⟩

/-- A caller that waits or leaves is moved by nothing but its own steps, and a context that has
ended stays so. -/
theorem Moved.elsewhere (hs : Moved policy s e s') (he : e.caller? ≠ some caller)
    (hidle : s.phase caller ≠ .idle) :
    s'.phase caller = s.phase caller ∧ (s.ended caller ≠ none → s'.ended caller ≠ none) := by
  have hgoTo : ∀ (s : State Ty Val) (other : ℕ) (p : Phase Ty Val), caller ≠ other →
      (s.goTo other p).phase caller = s.phase caller := by
    intro s other p hne
    simp [State.goTo, hne]
  have hother : ∀ {other : ℕ}, e.caller? = some other → caller ≠ other :=
    fun hmove heq => he (heq ▸ hmove)
  cases hs with
  | goes hmove =>
    refine ⟨hgoTo _ _ _ fun heq => ?_, fun h => h⟩
    subst heq
    exact hmove.elim hidle he
  | joins hmove | starts hmove | releases hmove => exact ⟨hgoTo _ _ _ (hother hmove), fun h => h⟩
  | @ends other err hnone =>
    refine ⟨rfl, fun h => ?_⟩
    by_cases heq : caller = other
    · rw [heq] at h
      exact absurd hnone h
    · change Function.update s.ended other (some err) caller ≠ none
      rwa [Function.update_of_ne heq]
  | sets | finishes => exact ⟨rfl, fun h => h⟩

theorem init_inv (hinflight : 0 < policy.maxInflight) (hwaiters : 0 < policy.maxWaiters) :
    Inv policy (init : State Ty Val) where
  loads key id := by simp [init]
  inflight := by simpa [init] using hinflight.le
  count id := by simp [State.holders, init, Phase.held]
  bound id := by simpa [init] using hwaiters.le
  phases caller := trivial
  cancelled id hid := absurd hid (by simp [init])

section

variable [DecidableEq Ty]

theorem Woken.wakes (h : Woken s caller) (he : e.caller? = some caller)
    (hs : step policy s e = some s') : Leaves s' caller := by
  obtain ⟨j, hphase, -, -⟩ := h
  cases e with
  | wake other ready =>
    obtain rfl := Option.some.inj he
    rw [Loader.step, hphase] at hs
    obtain ⟨outcome, -, rfl⟩ := Option.map_eq_some_iff.mp hs
    exact ⟨j, outcome, Function.update_self ..⟩
  | look other hit | acquire other | release other =>
    obtain rfl := Option.some.inj he
    rw [Loader.step, hphase] at hs
    exact absurd hs (by simp)
  | _ => exact absurd he (by simp [Event.caller?])

theorem Woken.stays (h : Woken s caller) (he : e.caller? ≠ some caller)
    (hs : step policy s e = some s') : Woken s' caller := by
  obtain ⟨j, hphase, hid, hready⟩ := h
  obtain ⟨hsame, hended⟩ := (step_moved hs).elsewhere he (by simp [hphase])
  obtain ⟨hid', hlasts⟩ := (step_moved hs).lasts hid
  exact ⟨j, hsame.trans hphase, hid', hready.imp hlasts.1 (Or.imp hlasts.2 hended)⟩

theorem Leaves.returns (h : Leaves s caller) (he : e.caller? = some caller)
    (hs : step policy s e = some s') : Returned s' caller := by
  obtain ⟨j, outcome, hphase⟩ := h
  cases e with
  | release other =>
    obtain rfl := Option.some.inj he
    rw [Loader.step, hphase] at hs
    rw [← Option.some.inj hs]
    exact ⟨some j, outcome, Function.update_self ..⟩
  | look other hit | acquire other | wake other ready =>
    obtain rfl := Option.some.inj he
    rw [Loader.step, hphase] at hs
    exact absurd hs (by simp)
  | _ => exact absurd he (by simp [Event.caller?])

theorem Leaves.stays (h : Leaves s caller) (he : e.caller? ≠ some caller)
    (hs : step policy s e = some s') : Leaves s' caller := by
  obtain ⟨j, outcome, hphase⟩ := h
  exact ⟨j, outcome, ((step_moved hs).elsewhere he (by simp [hphase])).1.trans hphase⟩

theorem loadPolicy_pos (config : LoadPolicy) :
    0 < (loadPolicy config).maxInflight ∧ 0 < (loadPolicy config).maxWaiters := by
  unfold loadPolicy
  dsimp only
  constructor <;> split_ifs <;> omega

/-- Every state of a run is safe, and in a run that lets each caller go on that can, a caller that
waits on a load returns once the load is done or one of the two contexts has ended. -/
theorem shared_loads (config : LoadPolicy)
    (r : Execution (S := State Ty Val) (step (loadPolicy config))) (h₀ : r.state 0 = init) :
    (∀ k, Safe (loadPolicy config) (r.state k)) ∧
    (r.Fair Event.caller? Able → ∀ k caller id, WaitsOn (r.state k) id caller →
      ((r.state k).calls id).runner = .finished ∨ ((r.state k).calls id).ctx ≠ none ∨
        (r.state k).ended caller ≠ none → ∃ l, k ≤ l ∧ Returned (r.state l) caller) := by
  obtain ⟨hinflight, hwaiters⟩ := loadPolicy_pos config
  have hinv : ∀ k, Inv (loadPolicy config) (r.state k) :=
    Execution.invariant (C := fun _ _ => True) (fun _ _ _ => trivial)
      (h₀ ▸ init_inv hinflight hwaiters)
      fun _ _ _ _ hs h => h.moved hwaiters (step_moved hs)
  refine ⟨fun k => (hinv k).safe, fun hfair k caller id hwaits hready => ?_⟩
  have hleaves : r.LeadsTo (Woken · caller) (Leaves · caller) :=
    hfair.leadsTo_next caller (fun _ h => .inr (.inl h))
      (fun _ e h he hne => .inl (h.stays hne (r.move _ e he))) fun _ e h he heq =>
        h.wakes heq (r.move _ e he)
  have hreturns : r.LeadsTo (Leaves · caller) (Returned · caller) :=
    hfair.leadsTo_next caller (fun _ h => .inr (.inr h))
      (fun _ e h he hne => .inl (h.stays hne (r.move _ e he))) fun _ e h he heq =>
        h.returns heq (r.move _ e he)
  obtain ⟨j, hphase, rfl⟩ := hwaits
  have hid : j.id < (r.state k).next := (hinv k).held_lt (by rw [hphase, Phase.held])
  exact hleaves.trans hreturns k ⟨j, hphase, hid, hready⟩

end

def sharedLoad : List (Event Unit ℕ) :=
  [.call 0 "k" (), .call 1 "k" (), .look 0 none, .look 1 none, .acquire 0, .acquire 1,
    .endContext 1 .canceled,
    .wake 1 .own, .release 1, .run 0 (some ((), 7)) none, .finish 0, .wake 0 .done, .release 0]

def sharedRun : Execution (S := State Unit ℕ) (step (loadPolicy {})) :=
  .ofList init sharedLoad (by decide +kernel)

def Phase.settled : Phase Unit ℕ → Bool
  | .idle | .returned _ _ => true
  | .looking _ _ | .acquiring _ _ | .waiting _ | .leaving _ _ => false

theorem Able.not_settled {s : State Unit ℕ} {caller : ℕ} (h : Able s caller) :
    (s.phase caller).settled = false := by
  rcases h with ⟨key, ty, h | h⟩ | ⟨j, h, -⟩ | ⟨j, outcome, h⟩ <;> rw [h, Phase.settled]

theorem sharedRun_fair : sharedRun.Fair Event.caller? Able := by
  refine Execution.ofList_fair fun caller hable => Bool.eq_false_iff.mp hable.not_settled ?_
  rcases caller with _ | _ | caller
  · decide +kernel
  · decide +kernel
  · rfl

/-- The first caller is given the value and the second its own error. -/
theorem sharedRun_returns :
    (sharedRun.state 13).phase 0 = .returned (some ⟨0, "k", (), true⟩) (.value 7) ∧
    (sharedRun.state 13).phase 1 = .returned (some ⟨0, "k", (), true⟩)
      (.error (.context .canceled)) ∧
    (∀ k, Safe (loadPolicy {}) (sharedRun.state k)) ∧ ∃ l, 7 ≤ l ∧
      Returned (sharedRun.state l) 1 := by
  obtain ⟨hsafe, hreturn⟩ := shared_loads {} sharedRun rfl
  refine ⟨by decide +kernel, by decide +kernel, hsafe, ?_⟩
  refine hreturn sharedRun_fair 7 1 0 ⟨⟨0, "k", (), true⟩, by decide +kernel, rfl⟩ (.inr (.inr ?_))
  decide +kernel

end Foundation.Loader
