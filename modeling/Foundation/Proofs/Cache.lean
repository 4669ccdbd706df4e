import Foundation.Spec.Cache
import Mathlib.Data.String.Basic

/-! A `Get` that begins after a successful `Set` finds the value, as long as misses are recorded
only while they are true and no `Set` of the key stands between its two accesses. -/

namespace Foundation.Cache

variable {Data : Type} {o : RangeOrder String} {s s' : State Data}

/-! ### The memo -/

variable {key : String} {p : Phase Data} {caller : ℕ} {late : Bool}

namespace MissMemo

variable {m : MissMemo} {now : ℤ}

theorem lookup_has {key key' : String} {expiry : ℤ}
    (h : (m.has key now).2.entries.lookup key' = some expiry) :
    m.entries.lookup key' = some expiry := by
  unfold has at h
  split at h
  · exact h
  · split at h
    · rw [GoMap.lookup_erase_if] at h
      split at h
      · exact absurd h (by simp)
      · exact h
    · exact h

theorem has_eq_true (h : (m.has key now).1 = true) :
    ∃ expiry, m.entries.lookup key = some expiry := by
  unfold has at h
  split at h
  · exact absurd h (by simp)
  next expiry hexpiry => exact ⟨expiry, hexpiry⟩

theorem lookup_dropExpired {expiry : ℤ} (es : List (String × ℤ)) {kept : GoMap String ℤ}
    (h : (es.foldl (dropExpired now) kept).lookup key = some expiry) :
    kept.lookup key = some expiry := by
  induction es generalizing kept with
  | nil => exact h
  | cons entry es ih =>
    have hstep := ih h
    rw [dropExpired] at hstep
    split at hstep
    · rw [GoMap.lookup_erase_if] at hstep
      split at hstep
      · exact absurd hstep (by simp)
      · exact hstep
    · exact hstep

theorem lookup_add {key key' : String} {now expiry : ℤ}
    (h : (m.add o key now).entries.lookup key' = some expiry) :
    key' = key ∨ ∃ expiry', m.entries.lookup key' = some expiry' := by
  rw [or_iff_not_imp_left]
  intro hne
  unfold add at h
  split at h
  · dsimp only at h
    split at h
    · exact ⟨expiry, lookup_dropExpired _ h⟩
    · rw [GoMap.lookup_insert_if, if_neg hne] at h
      exact ⟨expiry, lookup_dropExpired _ h⟩
  · rw [GoMap.lookup_insert_if, if_neg hne] at h
    exact ⟨expiry, h⟩

end MissMemo

/-! ### Runs -/

/-- What a call knows at each point. -/
def PhaseOk (s : State Data) : Phase Data → Prop
  | .checking key late | .reading key late => late = true → key ∈ s.stored
  | .missed _ late => late = false
  | .storing key _ => s.misses.entries.lookup key = none
  | .idle | .forgetting _ _ => True

structure Inv (s : State Data) : Prop where
  memo : ∀ key expiry, s.misses.entries.lookup key = some expiry → s.backend.lookup key = none
  stored : ∀ key ∈ s.stored, s.backend.lookup key ≠ none
  phases : ∀ caller, PhaseOk s (s.phase caller)
  answers : ∀ a ∈ s.answers, a.late = true → a.outcome ≠ .notFound

/-- A miss is recorded only while the backend has no value and no `Set` has passed its `forget`. -/
def MemoizesTrueMiss (s : State Data) : Event Data → Prop
  | .memoize caller _ => ∀ key late, s.phase caller = .missed key late →
    s.backend.lookup key = none ∧ ∀ other data, s.phase other ≠ .storing key data
  | _ => True

theorem PhaseOk.mono (h : PhaseOk s p) (hstored : ∀ key ∈ s.stored, key ∈ s'.stored)
    (hmemo : ∀ key expiry, s'.misses.entries.lookup key = some expiry →
      ∃ e, s.misses.entries.lookup key = some e) :
    PhaseOk s' p := by
  cases p with
  | idle | forgetting => trivial
  | checking key late | reading key late => exact fun hlate => hstored key (h hlate)
  | missed => exact h
  | storing key =>
    refine Option.eq_none_iff_forall_ne_some.mpr fun expiry hexpiry => ?_
    obtain ⟨e, he⟩ := hmemo key expiry hexpiry
    rw [PhaseOk] at h
    exact absurd he (by simp [h])

theorem Inv.goTo (h : Inv s) (hp : PhaseOk s p) : Inv (s.goTo caller p) := by
  refine ⟨h.memo, h.stored, ?_, h.answers⟩
  exact (Function.forall_update_iff s.phase (p := fun _ p => PhaseOk s p)).mpr ⟨hp,
    fun other _ => h.phases other⟩

theorem Inv.answer {outcome : Outcome Data} (h : Inv s)
    (hanswer : late = true → outcome ≠ .notFound) : Inv (s.answer caller late outcome) := by
  have hidle : Inv (s.goTo caller .idle) := h.goTo trivial
  refine ⟨hidle.memo, hidle.stored, hidle.phases, fun a ha => ?_⟩
  rcases List.mem_cons.mp ha with rfl | ha
  · exact hanswer
  · exact h.answers a ha

theorem Inv.phaseOk (h : Inv s) (hphase : s.phase caller = p) : PhaseOk s p :=
  hphase ▸ h.phases caller

theorem Inv.check (h : Inv s) (hphase : s.phase caller = .checking key late) (now : ℤ) :
    Inv (if (s.misses.has key now).1 then
        State.answer { s with misses := (s.misses.has key now).2 } caller late .notFound
      else State.goTo { s with misses := (s.misses.has key now).2 } caller
        (.reading key late)) := by
  have hlate : late = true → key ∈ s.stored := h.phaseOk hphase
  have hchecked : Inv { s with misses := (s.misses.has key now).2 } :=
    ⟨fun key expiry he => h.memo key expiry (MissMemo.lookup_has he), h.stored,
      fun caller => (h.phases caller).mono (fun _ => id) fun _ expiry he =>
        ⟨expiry, MissMemo.lookup_has he⟩,
      h.answers⟩
  split
  next hhas =>
    obtain ⟨expiry, hexpiry⟩ := MissMemo.has_eq_true hhas
    exact hchecked.answer fun hl => absurd (h.memo key expiry hexpiry) (h.stored key (hlate hl))
  next => exact hchecked.goTo hlate

theorem Inv.memoize (h : Inv s) (hphase : s.phase caller = .missed key late)
    (hbackend : s.backend.lookup key = none)
    (hstoring : ∀ other data, s.phase other ≠ .storing key data) (now : ℤ) :
    Inv (State.answer { s with misses := s.misses.add o key now } caller late .notFound) := by
  have hlate : late = false := h.phaseOk hphase
  have hadded : Inv { s with misses := s.misses.add o key now } := by
    refine ⟨fun key' expiry he => ?_, h.stored, fun other => ?_, h.answers⟩
    · rcases MissMemo.lookup_add he with rfl | ⟨expiry', hold⟩
      · exact hbackend
      · exact h.memo key' expiry' hold
    · -- Only a `Set` past its `forget` relies on the memo, and none of this key is.
      have hp := h.phases other
      cases hother : s.phase other with
      | storing key' data =>
        rw [hother] at hp
        refine Option.eq_none_iff_forall_ne_some.mpr fun expiry he => ?_
        rcases MissMemo.lookup_add he with rfl | ⟨expiry', hold⟩
        · exact hstoring other data hother
        · exact absurd hold (by simp [show s.misses.entries.lookup key' = none from hp])
      | _ =>
        rw [hother] at hp
        exact hp
  exact hadded.answer fun hl => absurd hl (by simp [hlate])

theorem Inv.forget (h : Inv s) (caller : ℕ) (key : String) (data : Option Data) :
    Inv (State.goTo { s with misses := s.misses.forget key } caller
      ((data.map (Phase.storing key)).getD .idle)) := by
  have herase : ∀ key' expiry, (s.misses.forget key).entries.lookup key' = some expiry →
      s.misses.entries.lookup key' = some expiry := by
    intro key' expiry he
    rw [MissMemo.forget, GoMap.lookup_erase_if] at he
    split at he
    · exact absurd he (by simp)
    · exact he
  have hforgot : Inv { s with misses := s.misses.forget key } :=
    ⟨fun key' expiry he => h.memo key' expiry (herase key' expiry he), h.stored,
      fun other => (h.phases other).mono (fun _ => id) fun key' expiry he =>
        ⟨expiry, herase key' expiry he⟩,
      h.answers⟩
  refine hforgot.goTo ?_
  cases data with
  | none => trivial
  | some data =>
    change (s.misses.forget key).entries.lookup key = none
    rw [MissMemo.forget, GoMap.lookup_erase_if, if_pos rfl]

theorem Inv.store {data : Data} {applied succeeds : Bool} (h : Inv s)
    (hphase : s.phase caller = .storing key data) (happlied : succeeds = true → applied = true) :
    Inv (State.goTo { s with
      backend := if applied then s.backend.insert key data else s.backend
      stored := if succeeds then key :: s.stored else s.stored } caller .idle) := by
  have hmemo : s.misses.entries.lookup key = none := h.phaseOk hphase
  refine Inv.goTo ⟨fun key' expiry he => ?_, fun key' hkey => ?_, fun other => ?_,
    h.answers⟩ trivial
  · dsimp only at he ⊢
    split
    · have hne : key' ≠ key := by
        rintro rfl
        exact absurd he (by simp [hmemo])
      rw [GoMap.lookup_insert_if, if_neg hne]
      exact h.memo key' expiry he
    · exact h.memo key' expiry he
  · dsimp only at hkey ⊢
    by_cases happ : applied = true
    · rw [if_pos happ, GoMap.lookup_insert_if]
      split
      · simp
      next hne =>
        refine h.stored key' ?_
        split at hkey
        · exact (List.mem_cons.mp hkey).resolve_left hne
        · exact hkey
    · rw [if_neg happ]
      rw [if_neg fun hsucceeds => happ (happlied hsucceeds)] at hkey
      exact h.stored key' hkey
  · refine (h.phases other).mono (fun key' hkey => ?_) fun key' expiry he => ⟨expiry, he⟩
    dsimp only
    split
    · exact List.mem_cons_of_mem _ hkey
    · exact hkey

theorem Inv.step (h : Inv s) (e : Event Data) (hC : MemoizesTrueMiss s e)
    (hs : step o s e = some s') : Inv s' := by
  cases e with
  | get caller key =>
    simp only [Cache.step] at hs
    split at hs <;> [skip; exact absurd hs (by simp)]
    rw [← Option.some.inj hs]
    exact h.goTo fun hlate => List.contains_iff_mem.mp hlate
  | check caller now =>
    simp only [Cache.step] at hs
    split at hs <;> [skip; exact absurd hs (by simp)]
    next key late hphase =>
    rw [← Option.some.inj hs]
    exact h.check hphase now
  | read caller fails =>
    simp only [Cache.step] at hs
    split at hs <;> [skip; exact absurd hs (by simp)]
    next key late hphase =>
    have hlate : late = true → key ∈ s.stored := h.phaseOk hphase
    split at hs
    · rw [← Option.some.inj hs]
      exact h.answer fun _ => by simp
    · split at hs
      next hnone =>
        rw [← Option.some.inj hs]
        exact h.goTo (Bool.eq_false_iff.mpr fun hl => h.stored key (hlate hl) hnone)
      next =>
        rw [← Option.some.inj hs]
        exact h.answer fun _ => by simp
  | memoize caller now =>
    simp only [Cache.step] at hs
    split at hs <;> [skip; exact absurd hs (by simp)]
    next key late hphase =>
    obtain ⟨hbackend, hstoring⟩ := hC key late hphase
    rw [← Option.some.inj hs]
    exact h.memoize hphase hbackend hstoring now
  | set caller key data =>
    simp only [Cache.step] at hs
    split at hs <;> [skip; exact absurd hs (by simp)]
    rw [← Option.some.inj hs]
    exact h.goTo trivial
  | forget caller =>
    simp only [Cache.step] at hs
    split at hs <;> [skip; exact absurd hs (by simp)]
    next key data hphase =>
    rw [← Option.some.inj hs]
    exact h.forget caller key data
  | store caller applied succeeds =>
    simp only [Cache.step] at hs
    split at hs <;> [skip; exact absurd hs (by simp)]
    next key data hphase =>
    split at hs <;> [exact absurd hs (by simp); skip]
    next hpossible =>
    rw [← Option.some.inj hs]
    exact h.store hphase (by simpa using hpossible)

theorem init_inv {misses : MissMemo} (h : misses.entries = ∅) : Inv (init misses : State Data) :=
  ⟨fun key expiry he => by simp [init, h] at he, fun key hkey => absurd hkey (by simp [init]),
    fun _ => trivial, fun a ha => absurd ha (by simp [init])⟩

/-- A `Get` that begins after a `Set` of its key has succeeded does not miss, in any run where
misses are recorded only while they are true. -/
theorem reads_its_writes (o : RangeOrder String) (maxEntries ttl : ℤ) (s : State Data)
    (h : Reached (step o) MemoizesTrueMiss (init (newMissMemo maxEntries ttl)) s) :
    ∀ a ∈ s.answers, a.late = true → a.outcome ≠ .notFound :=
  (h.invariant (P := Inv) (init_inv rfl) fun _ e _ hC hs hinv => hinv.step e hC hs).answers

def byName : RangeOrder String := .ascendingBy id Function.injective_id

def guarded : State ℕ := init (newMissMemo 0 0)

def staleMiss : Answer ℕ := ⟨true, .notFound⟩

def isMemoize : Event ℕ → Bool
  | .memoize _ _ => true
  | _ => false

theorem memoizesTrueMiss_of_not {s : State ℕ} {e : Event ℕ} (h : (!isMemoize e) = true) :
    MemoizesTrueMiss s e := by
  cases e with
  | memoize => exact absurd h (by simp [isMemoize])
  | _ => trivial

def missing : State ℕ :=
  ((guarded.goTo 0 (.checking "k" false)).goTo 0 (.reading "k" false)).goTo 0 (.missed "k" false)

theorem missing_reached : Reached (step byName) MemoizesTrueMiss guarded missing :=
  ((Reached.start.next (.get 0 "k") trivial rfl).next (.check 0 0) trivial rfl).next
    (.read 0 false) trivial rfl

theorem missing_memoizes : MemoizesTrueMiss missing (.memoize 0 0) := by
  refine fun key late _ => ⟨rfl, fun other data hstoring => ?_⟩
  by_cases hother : other = 0 <;> simp [hother, missing, State.goTo, guarded, init] at hstoring

/-- A miss is recorded, then a value is stored and found. -/
theorem miss_then_set_then_hit :
    ∃ s : State ℕ, Reached (step byName) MemoizesTrueMiss (init (newMissMemo 0 0)) s ∧
      s.answers = [⟨true, .found 7⟩, ⟨false, .notFound⟩] ∧ ∀ a ∈ s.answers, a.late = true →
        a.outcome ≠ .notFound := by
  have hmiss := missing_reached.next (.memoize 0 0) missing_memoizes rfl
  obtain ⟨s, hreach, hs⟩ := hmiss.exists_continued (fun _ e => !isMemoize e)
    (fun s => s.answers == [⟨true, .found 7⟩, ⟨false, .notFound⟩])
    [.set 1 "k" (some 7), .forget 1, .store 1 true true, .get 2 "k", .check 2 0, .read 2 false]
    (fun _ _ => memoizesTrueMiss_of_not) (by decide +kernel) (by decide +kernel)
  exact ⟨s, hreach, eq_of_beq hs, reads_its_writes byName 0 0 s hreach⟩

/-- A miss that was read before a `Set` is recorded after it. -/
theorem stale_miss_recorded :
    ∃ s : State ℕ, Reached (step byName) (fun _ _ => True) (init (newMissMemo 0 0)) s ∧
      staleMiss ∈ s.answers := by
  obtain ⟨s, hreach, hmiss⟩ :=
    Reached.exists_of_run (step byName) (C := fun _ _ => True) (fun _ _ => true)
    (fun s => decide (staleMiss ∈ s.answers)) guarded
    [.get 0 "k", .check 0 0, .read 0 false, .set 1 "k" (some 7), .forget 1, .store 1 true true,
      .memoize 0 0,
      .get 2 "k", .check 2 0] (fun _ _ _ => trivial) (by decide +kernel) (by decide +kernel)
  exact ⟨s, hreach, of_decide_eq_true hmiss⟩

end Foundation.Cache
