import Mathlib.Logic.Function.Basic

/-! The states a system reaches from a first one by steps that all meet a condition. -/

namespace Foundation

variable {S E : Type*} {step : S → E → Option S} {C : S → E → Prop} {s₀ s s' : S}

inductive Reached (step : S → E → Option S) (C : S → E → Prop) (s₀ : S) : S → Prop
  | start : Reached step C s₀ s₀
  | next {s s' : S} (e : E) : Reached step C s₀ s → C s e → step s e = some s' →
    Reached step C s₀ s'

/-- What holds at first and is kept by every step that meets the condition holds in every state. -/
theorem Reached.invariant {P : S → Prop} (h : Reached step C s₀ s) (h₀ : P s₀)
    (hstep : ∀ s e s', C s e → step s e = some s' → P s → P s') : P s := by
  induction h with
  | start => exact h₀
  | next e _ hC hs ih => exact hstep _ e _ hC hs ih

theorem Reached.mono {D : S → E → Prop} (h : Reached step C s₀ s) (hCD : ∀ s e, C s e → D s e) :
    Reached step D s₀ s := by
  induction h with
  | start => exact .start
  | next e _ hC hs ih => exact ih.next e (hCD _ e hC) hs

/-- The state after a list of steps, if each of them is possible. -/
def runSteps (step : S → E → Option S) : S → List E → Option S
  | s, [] => some s
  | s, e :: rest => (step s e).bind (runSteps step · rest)

theorem runSteps_append (es es' : List E) :
    runSteps step s (es ++ es') = some s' ↔
      ∃ mid, runSteps step s es = some mid ∧ runSteps step mid es' = some s' := by
  induction es generalizing s with
  | nil => simp [runSteps]
  | cons e es ih =>
    simp only [List.cons_append, runSteps, Option.bind_eq_some_iff, ih]
    constructor
    · rintro ⟨next, hnext, mid, hmid, hend⟩
      exact ⟨mid, ⟨next, hnext, hmid⟩, hend⟩
    · rintro ⟨mid, ⟨next, hnext, hmid⟩, hend⟩
      exact ⟨next, hnext, mid, hmid, hend⟩

/-- Whether every step of a list meets a condition in its turn. -/
def stepsMeet (step : S → E → Option S) (c : S → E → Bool) : S → List E → Bool
  | _, [] => true
  | s, e :: rest => c s e && ((step s e).map (stepsMeet step c · rest)).getD false

theorem Reached.of_runSteps {c : S → E → Bool} (hc : ∀ s e, c s e = true → C s e) {es : List E}
    (h : Reached step C s₀ s) (hmeet : stepsMeet step c s es = true)
    (hrun : runSteps step s es = some s') :
    Reached step C s₀ s' := by
  induction es generalizing s with
  | nil => exact Option.some.inj hrun ▸ h
  | cons e rest ih =>
    obtain ⟨next, hnext, hrun⟩ := Option.bind_eq_some_iff.mp hrun
    rw [stepsMeet, hnext, Bool.and_eq_true] at hmeet
    exact ih (h.next e (hc s e hmeet.1) hnext) hmeet.2 hrun

theorem Reached.of_free {es : List E} (h : Reached step C s₀ s) (hC : ∀ e ∈ es, ∀ s, C s e)
    (hrun : runSteps step s es = some s') : Reached step C s₀ s' := by
  induction es generalizing s with
  | nil => exact Option.some.inj hrun ▸ h
  | cons e rest ih =>
    obtain ⟨next, hnext, hrun⟩ := Option.bind_eq_some_iff.mp hrun
    exact ih (h.next e (hC e List.mem_cons_self s) hnext)
      (fun e he => hC e (List.mem_cons_of_mem _ he)) hrun

/-- A run on further concrete steps that ends in a state where `p` holds. -/
theorem Reached.exists_continued (h : Reached step C s₀ s) (c : S → E → Bool) (p : S → Bool)
    (es : List E) (hc : ∀ s e, c s e = true → C s e) (hmeet : stepsMeet step c s es = true)
    (hany : (runSteps step s es).any p = true) : ∃ s', Reached step C s₀ s' ∧ p s' = true := by
  obtain ⟨s', hrun, hp⟩ := (Option.any_eq_true _ _).mp hany
  exact ⟨s', h.of_runSteps hc hmeet hrun, hp⟩

theorem Reached.exists_of_run (step : S → E → Option S) {C : S → E → Prop} (c : S → E → Bool)
    (p : S → Bool) (s₀ : S) (es : List E) (hc : ∀ s e, c s e = true → C s e)
    (hmeet : stepsMeet step c s₀ es = true) (h : (runSteps step s₀ es).any p = true) :
    ∃ s, Reached step C s₀ s ∧ p s = true :=
  Reached.start.exists_continued c p es hc hmeet h

end Foundation
