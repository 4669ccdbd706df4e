import Foundation.Spec.CachedStateStore

/-! What the version guard of `UpsertRecord` is worth. The latest commit stays cached unless a
call that read the entry before that commit was written writes after it. -/

namespace Foundation.Hermes.CachedStateStore

open Go

variable {ι : Type} [DecidableEq ι] {requests : ι → DomainRecord}

/-- When the call that committed `rec` writes, no other is between its read and its write. -/
def Alone (rec : DomainRecord) (s : Shared ι) : Action ι → Prop
  | .set i => s.phase i = .guarded rec → ∀ j result, s.phase j = .guarded result → j = i
  | _ => True

theorem unixNano_lt {t u : Time} : unixNano t < unixNano u ↔ t < u := sub_lt_sub_iff_right unixEpoch

def UpTo (latest : Option DomainRecord) (result : DomainRecord) : Prop :=
  ∃ rec ∈ latest, result = rec ∨ result.updatedAt < rec.updatedAt

/-- `base` is what the inner store held before the calls, `rec` one of their commits. -/
structure Inv (base : Option DomainRecord) (rec : DomainRecord) (latest : Option DomainRecord)
    (cached : Option Envelope) (phase : ι → Phase) : Prop where
  calls : ∀ i, ∀ result ∈ (phase i).inFlight, UpTo latest result
  entry : ∀ e ∈ cached, ∃ last ∈ latest, e.version ≤ unixNano last.updatedAt
  -- the latest commit is going to be written, or it is cached and no other write is coming
  pending : latest = some rec → rec ∈ base ∨ (∃ i, (phase i).inFlight = some rec) ∨
    cached = some (newEnvelope rec) ∧ ∀ i result, phase i ≠ .guarded result

section

variable {base latest : Option DomainRecord} {cached : Option Envelope} {phase : ι → Phase} {i : ι}
  {rec result : DomainRecord}

theorem UpTo.of_later (h : UpTo latest result) {new : DomainRecord}
    (hlater : ∀ last ∈ latest, last.updatedAt < new.updatedAt) : UpTo (some new) result := by
  obtain ⟨last, hlast, hold⟩ := h
  have hlt := hlater last hlast
  exact ⟨new, rfl, .inr (hold.elim (fun heq => heq ▸ hlt) (lt_trans · hlt))⟩

theorem Inv.commit (h : Inv base rec latest cached phase)
    (hlater : ∀ last ∈ latest, last.updatedAt < result.updatedAt) :
    Inv base rec (some result) cached (Function.update phase i (.committed result)) := by
  refine ⟨?_, fun e he => ?_, fun hrec => ?_⟩
  · rw [Function.forall_update_iff phase fun _ p => ∀ r ∈ p.inFlight, UpTo (some result) r]
    refine ⟨fun r hr => ?_, fun j _ r hr => (h.calls j r hr).of_later hlater⟩
    obtain rfl := Option.some.inj hr
    exact ⟨result, rfl, .inl rfl⟩
  · obtain ⟨last, hlast, hle⟩ := h.entry e he
    exact ⟨result, rfl, hle.trans (unixNano_lt.mpr (hlater last hlast)).le⟩
  · exact .inr (.inl ⟨i, by rw [Function.update_self]; exact hrec⟩)

theorem Inv.get (h : Inv base rec latest cached phase) (hi : phase i = .committed result) :
    Inv base rec latest cached (Function.update phase i
      (if cached.any fun current => unixNano result.updatedAt < current.version then .returned
        else .guarded result)) := by
  have hup : UpTo latest result := h.calls i result (by rw [hi]; rfl)
  -- nothing newer than the latest commit is cached
  have hpasses : latest = some result →
      ¬ (cached.any fun current => unixNano result.updatedAt < current.version) = true := by
    rintro rfl hnewer
    obtain ⟨e, he, hlt⟩ := (Option.any_eq_true _ _).mp hnewer
    obtain ⟨last, hlast, hle⟩ := h.entry e he
    obtain rfl := Option.some.inj hlast
    exact absurd (of_decide_eq_true hlt) (not_lt.mpr hle)
  refine ⟨?_, h.entry, fun hrec => ?_⟩
  · rw [Function.forall_update_iff phase fun _ p => ∀ r ∈ p.inFlight, UpTo latest r]
    refine ⟨fun r hr => ?_, fun j _ => h.calls j⟩
    split_ifs at hr
    · cases hr
    · obtain rfl := Option.some.inj hr
      exact hup
  · by_cases hown : result = rec
    · subst hown
      refine .inr (.inl ⟨i, ?_⟩)
      rw [Function.update_self, if_neg (hpasses hrec)]
      rfl
    · rcases h.pending hrec with hbase | ⟨j, hj⟩ | ⟨hcached, hnone⟩
      · exact .inl hbase
      · refine .inr (.inl ⟨j, ?_⟩)
        rw [Function.update_of_ne, hj]
        rintro rfl
        rw [hi] at hj
        exact hown (Option.some.inj hj)
      -- an older call finds the latest commit and returns
      · refine .inr (.inr ⟨hcached, ?_⟩)
        obtain ⟨last, hlast, hold⟩ := hup
        obtain rfl : rec = last := Option.some.inj (hrec.symm.trans hlast)
        have hlt := unixNano_lt.mpr (hold.resolve_left hown)
        rw [if_pos (by rw [hcached]; exact decide_eq_true hlt)]
        rw [Function.forall_update_iff phase fun _ p => ∀ r, p ≠ .guarded r]
        exact ⟨fun _ => Phase.noConfusion, fun j _ => hnone j⟩

theorem Inv.set (h : Inv base rec latest cached phase) (hi : phase i = .guarded result)
    (halone : phase i = .guarded rec → ∀ j r, phase j = .guarded r → j = i) :
    Inv base rec latest (some (newEnvelope result)) (Function.update phase i .returned) := by
  obtain ⟨last, hlast, hold⟩ := h.calls i result (by rw [hi]; rfl)
  refine ⟨?_, ?_, fun hrec => ?_⟩
  · rw [Function.forall_update_iff phase fun _ p => ∀ r ∈ p.inFlight, UpTo latest r]
    exact ⟨fun r hr => (by cases hr), fun j _ => h.calls j⟩
  · rintro e he
    obtain rfl := Option.some.inj he
    exact ⟨last, hlast, hold.elim (fun heq => heq ▸ le_rfl) fun hlt => (unixNano_lt.mpr hlt).le⟩
  · by_cases hown : result = rec
    · subst hown
      refine .inr (.inr ⟨rfl, ?_⟩)
      rw [Function.forall_update_iff phase fun _ p => ∀ r, p ≠ .guarded r]
      exact ⟨fun _ => Phase.noConfusion, fun j hne r hj => hne (halone hi j r hj)⟩
    -- an older write: the latest commit is still in the hands of its call
    · rcases h.pending hrec with hbase | ⟨j, hj⟩ | ⟨-, hnone⟩
      · exact .inl hbase
      · refine .inr (.inl ⟨j, ?_⟩)
        rw [Function.update_of_ne, hj]
        rintro rfl
        rw [hi] at hj
        exact hown (Option.some.inj hj)
      · exact absurd hi (hnone i result)

end

theorem inv_of_exec {base : Option DomainRecord} {rec : DomainRecord} {s s' : Shared ι}
    {a : Action ι} (halone : Alone rec s a) (hs : exec requests s a = some s')
    (h : Inv base rec s.latest s.cached s.phase) :
    Inv base rec s'.latest s'.cached s'.phase := by
  cases a with
  | commit i updatedAt =>
    rw [exec] at hs
    split_ifs at hs with hready
    cases hs
    exact h.commit hready.2
  | get i =>
    rw [exec] at hs
    cases hi : s.phase i with
    | committed result =>
      rw [hi] at hs
      cases hs
      exact h.get hi
    | ready | guarded _ | returned =>
      rw [hi] at hs
      cases hs
  | set i =>
    rw [exec] at hs
    cases hi : s.phase i with
    | guarded result =>
      rw [hi] at hs
      cases hs
      exact h.set hi halone
    | ready | committed _ | returned =>
      rw [hi] at hs
      cases hs

/-- The latest of the commits is cached once all calls have returned, if its call wrote when no
other was between its read and its write. The calls start with an entry that is not newer than
what the inner store holds. -/
theorem latest_commit_cached (requests : ι → DomainRecord) (base : Option DomainRecord)
    (entry : Option Envelope)
    (hentry : ∀ e ∈ entry, ∃ rec ∈ base, e.version ≤ unixNano rec.updatedAt) (rec : DomainRecord)
    (s : Shared ι) (hs : Reached (exec requests) (Alone rec) { latest := base, cached := entry } s)
    (hreturned : ∀ i, (s.phase i).inFlight = none) (hrec : s.latest = some rec)
    (hnew : rec ∉ base) : s.cached = some (newEnvelope rec) := by
  have hinv : Inv base rec s.latest s.cached s.phase :=
    hs.invariant ⟨fun _ _ hr => (by cases hr), hentry, .inl⟩ fun _ _ _ hC hstep =>
      inv_of_exec hC hstep
  rcases hinv.pending hrec with hbase | ⟨i, hi⟩ | ⟨hcached, -⟩
  · exact absurd hbase hnew
  · rw [hreturned i] at hi
    cases hi
  · exact hcached

def order (status : String) : DomainRecord :=
  { domain := "orders", collection := "order", organizationID := "org", recordID := "o-1",
    data := [⟨"status", stringValue status⟩] }

def twoUpserts (second : Bool) : DomainRecord := order (if second then "paid" else "open")

def cachedOf (second : Bool) (s : Shared Bool) : Bool :=
  decide ((∀ i, (s.phase i).inFlight = none) ∧
    s.latest = some { twoUpserts true with updatedAt := 2 } ∧
    s.cached = some (newEnvelope { twoUpserts second with updatedAt := if second then 2 else 1 }))

/-- Both calls read before either writes, and the older one writes last. -/
theorem older_upsert_cached_last :
    ∃ s : Shared Bool, Reached (exec twoUpserts) (fun _ _ => True) {} s ∧
      (∀ i, (s.phase i).inFlight = none) ∧
      ∃ rec, s.latest = some rec ∧ s.cached ≠ some (newEnvelope rec) := by
  obtain ⟨s, hs, hp⟩ :=
    Reached.exists_of_run (exec twoUpserts) (C := fun _ _ => True) (fun _ _ => true)
    (cachedOf false) {}
    [.commit false 1, .commit true 2, .get false, .get true, .set true, .set false]
    (fun _ _ _ => trivial) (by decide +kernel) (by decide +kernel)
  obtain ⟨hreturned, hlatest, hcached⟩ := of_decide_eq_true hp
  refine ⟨s, hs, hreturned, _, hlatest, ?_⟩
  rw [hcached]
  decide +kernel

def aloneOf (rec : DomainRecord) (s : Shared Bool) : Action Bool → Bool
  | .set i =>
    match s.phase i, s.phase !i with
    | .guarded result, .guarded _ => result ≠ rec
    | _, _ => true
  | _ => true

theorem alone_of_aloneOf {rec : DomainRecord} (s : Shared Bool) (a : Action Bool)
    (h : aloneOf rec s a = true) :
    Alone rec s a := by
  cases a with
  | commit | get => trivial
  | set i =>
    intro hi j r hj
    by_contra hne
    obtain rfl : j = !i := Bool.eq_not.mpr hne
    rw [aloneOf, hi, hj] at h
    exact of_decide_eq_true h rfl

/-- Both calls read before either writes, and the newer one writes last. -/
theorem newer_upsert_cached_last :
    ∃ s : Shared Bool,
      Reached (exec twoUpserts) (Alone { twoUpserts true with updatedAt := 2 }) {} s ∧
      s.cached = some (newEnvelope { twoUpserts true with updatedAt := 2 }) := by
  obtain ⟨s, hs, hp⟩ :=
    Reached.exists_of_run (exec twoUpserts) (aloneOf { twoUpserts true with updatedAt := 2 })
    (cachedOf true) {} [.commit false 1, .commit true 2, .get false, .get true,
      .set false, .set true]
    alone_of_aloneOf (by decide +kernel) (by decide +kernel)
  obtain ⟨hreturned, hlatest, -⟩ := of_decide_eq_true hp
  refine ⟨s, hs, latest_commit_cached twoUpserts none none ?_ _ s hs hreturned hlatest ?_⟩
  · rintro e ⟨⟩
  · rintro ⟨⟩

end Foundation.Hermes.CachedStateStore
