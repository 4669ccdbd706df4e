import Foundation.Lib.FairExecutions
import Foundation.Spec.MirrorSweep

/-! The sweeper's wake-up. A raised flag is backed by a token, by a `Notify` that has one to send,
or by a loop of `Run` that has still to come to the source, except where a failed sweep raised it.
As long as no `Notify` meets such a flag, no source is stranded and every signal brings a sweep. -/

namespace Foundation.Hermes

open Go

namespace Runner

/-- The sources the present loop has still to visit. -/
def ahead : Runner → List String
  | .passing _ rest | .sweeping _ _ rest | .scanning rest | .signalled _ rest | .failed _ rest =>
    rest
  | .flagged source rest => source :: rest
  | .waiting | .stopped => []

/-- The source that `sweepSignalled` is on. -/
def present : Runner → Option String
  | .flagged source _ | .signalled source _ | .failed source _ => some source
  | _ => none

/-- The source whose flag is about to be raised again. -/
def failing : Runner → Option String
  | .failed source _ => some source
  | _ => none

/-- How many accesses the runner is from the end of its loop, or from the place in it that `d`
measures the distance to. -/
def left (d : List String → ℕ) : Runner → ℕ
  | .passing _ rest | .scanning rest => 5 * d rest + 4
  | .sweeping _ _ rest | .failed _ rest => 5 * d rest + 6
  | .flagged source rest => 5 * d (source :: rest) + 3
  | .signalled _ rest => 5 * d rest + 7
  | .waiting | .stopped => 0

end Runner

namespace MirrorSweeper

/-- A `Notify` does not meet a flag that a failed sweep has raised. -/
def FreshNotify (m : MirrorSweeper) : SweepEvent → Prop
  | .notify name => trimSpace name ∉ m.reflagged
  | _ => True

structure Awaited (sources : List String) (m : MirrorSweeper) : Prop where
  ahead : ∀ s ∈ m.runner.ahead, s ∈ sources
  present : ∀ s ∈ m.runner.present, s ∈ sources
  failing : ∀ s ∈ m.runner.failing, s ∈ m.named → s ∈ m.dirty
  registered : ∀ s ∈ m.dirty, s ∈ sources
  reflagged : ∀ s ∈ m.reflagged, s ∉ m.named
  awaited : ∀ s ∈ m.dirty, m.wake = true ∨ 0 < m.sending ∨ s ∈ m.runner.ahead ∨ s ∈ m.reflagged ∨
    m.runner = .stopped

variable {source : String} {rest : List String} {n : ℕ} {failed : Bool}

section step
variable {sources : List String} {m m' : MirrorSweeper}

theorem Awaited.initial (sources : List String) : Awaited sources (initial sources) := by
  refine ⟨fun s hs => ?_, fun s hs => ?_, fun s _ hs => absurd hs (Finset.notMem_empty s),
    fun s hs => absurd hs (Finset.notMem_empty s), fun s hs => absurd hs (Finset.notMem_empty s),
    fun s hs => absurd hs (Finset.notMem_empty s)⟩
  · unfold MirrorSweeper.initial at hs
    split_ifs at hs with hne
    · cases hs
    · exact hs
  · unfold MirrorSweeper.initial at hs
    split_ifs at hs <;> cases hs

theorem Awaited.notify (hm : m.Awaited sources) {name : String}
    (hfresh : trimSpace name ∉ m.reflagged) :
    (m.notify sources name).Awaited sources := by
  have hnamed : ∀ s ∈ m.reflagged, s ∉ insert (trimSpace name) m.named := by
    intro s hs hin
    rcases Finset.mem_insert.mp hin with rfl | hin
    · exact hfresh hs
    · exact hm.reflagged s hs hin
  unfold MirrorSweeper.notify
  simp only
  split_ifs with hin hdirty
  · refine ⟨hm.ahead, hm.present, fun s hs hn => ?_, hm.registered, hnamed, hm.awaited⟩
    rcases Finset.mem_insert.mp hn with rfl | hn
    · exact hdirty
    · exact hm.failing s hs hn
  · refine ⟨hm.ahead, hm.present, fun s hs hn => ?_, fun s hs => ?_, hnamed,
      fun s hs => .inr (.inl (Nat.succ_pos _))⟩
    · rcases Finset.mem_insert.mp hn with rfl | hn
      · exact Finset.mem_insert_self _ _
      · exact Finset.mem_insert_of_mem (hm.failing s hs hn)
    · rcases Finset.mem_insert.mp hs with rfl | hs
      · exact hin
      · exact hm.registered s hs
  · exact ⟨hm.ahead, hm.present, hm.failing, hm.registered, hm.reflagged, hm.awaited⟩

theorem Awaited.beginSweep (hm : m.Awaited sources) {runner : Runner}
    (hr : m.runner.ahead = source :: rest) (hr' : runner.ahead = rest)
    (hpresent : ∀ s ∈ runner.present, s = source) (hfailing : runner.failing = none) :
    (m.beginSweep source runner).Awaited sources := by
  have hsource : source ∈ sources := hm.ahead source (hr ▸ List.mem_cons_self)
  refine ⟨fun s hs => hm.ahead s ?_, fun s hs => hpresent s hs ▸ hsource,
    fun s hs => absurd (hfailing ▸ hs) (Option.not_mem_none s),
    fun s hs => hm.registered s (Finset.mem_of_mem_erase hs),
    fun s hs => hm.reflagged s (Finset.mem_of_mem_erase hs), fun s hs => ?_⟩
  · rw [hr]
    exact List.mem_cons_of_mem _ (hr' ▸ hs)
  · obtain ⟨hne, hs⟩ := Finset.mem_erase.mp hs
    rcases hm.awaited s hs with h | h | h | h | h
    · exact .inl h
    · exact .inr (.inl h)
    · rw [hr] at h
      exact .inr (.inr (.inl (hr' ▸ (List.mem_cons.mp h).resolve_left hne)))
    · exact .inr (.inr (.inr (.inl (Finset.mem_erase.mpr ⟨hne, h⟩))))
    · rw [h] at hr
      cases hr

/-- The runner moves on without touching a flag, and leaves no dirty source behind. -/
theorem Awaited.moveOn (hm : m.Awaited sources) (hd : m'.dirty = m.dirty)
    (hre : m'.reflagged = m.reflagged) (hn : m'.named ⊆ m.named) (hs : m'.sending = m.sending)
    (hahead : ∀ s ∈ m'.runner.ahead, s ∈ sources) (hpresent : ∀ s ∈ m'.runner.present, s ∈ sources)
    (hfailing : ∀ s ∈ m'.runner.failing, s ∉ m'.named)
    (hleft : ∀ s ∈ m.dirty, m.wake = true ∨ s ∈ m.runner.ahead ∨ m.runner = .stopped →
      m'.wake = true ∨ s ∈ m'.runner.ahead ∨ m'.runner = .stopped) : m'.Awaited sources := by
  refine ⟨hahead, hpresent, fun s h hin => absurd hin (hfailing s h), hd ▸ hm.registered,
    fun s h hin => ?_, fun s h => ?_⟩
  · exact hm.reflagged s (hre ▸ h) (hn hin)
  · rw [hd] at h
    rw [hs, hre]
    have hl := hleft s h
    rcases hm.awaited s h with h | h | h | h | h
    · rcases hl (.inl h) with h | h | h <;> tauto
    · exact .inr (.inl h)
    · rcases hl (.inr (.inl h)) with h | h | h <;> tauto
    · exact .inr (.inr (.inr (.inl h)))
    · rcases hl (.inr (.inr h)) with h | h | h <;> tauto

theorem Awaited.reflag (hm : m.Awaited sources) (hr : m.runner = .failed source rest)
    (hd : m'.dirty = insert source m.dirty)
    (hre : m'.reflagged = if source ∈ m.dirty then m.reflagged else insert source m.reflagged)
    (hn : m'.named = m.named) (hw : m'.wake = m.wake) (hs : m'.sending = m.sending)
    (hr' : m'.runner = .scanning rest) : m'.Awaited sources := by
  have hsub : m.reflagged ⊆ m'.reflagged := by
    rw [hre]
    split_ifs
    · exact Finset.Subset.refl _
    · exact Finset.subset_insert _ _
  have hsource : source ∈ sources := hm.present source (by rw [hr]; rfl)
  have hrest : m'.runner.ahead = m.runner.ahead := by rw [hr, hr']; rfl
  refine ⟨hrest ▸ hm.ahead, fun s h => ?_, fun s h => ?_, fun s h => ?_, fun s h => ?_,
    fun s h => ?_⟩
  · rw [hr'] at h; cases h
  · rw [hr'] at h; cases h
  · rw [hd] at h
    rcases Finset.mem_insert.mp h with rfl | h
    · exact hsource
    · exact hm.registered s h
  · rw [hn]
    rw [hre] at h
    split_ifs at h with hdirty
    · exact hm.reflagged s h
    · rcases Finset.mem_insert.mp h with rfl | h
      · exact fun hin => hdirty (hm.failing s (by rw [hr]; rfl) hin)
      · exact hm.reflagged s h
  · rw [hw, hs, hrest]
    have hold : s ∈ m.dirty → m.wake = true ∨ 0 < m.sending ∨ s ∈ m.runner.ahead ∨
        s ∈ m'.reflagged ∨
        m'.runner = .stopped := by
      intro hin
      rcases hm.awaited s hin with h | h | h | h | h
      · exact .inl h
      · exact .inr (.inl h)
      · exact .inr (.inr (.inl h))
      · exact .inr (.inr (.inr (.inl (hsub h))))
      · rw [hr] at h; cases h
    by_cases hin : s ∈ m.dirty
    · exact hold hin
    · rw [hd] at h
      obtain rfl := (Finset.mem_insert.mp h).resolve_right hin
      refine .inr (.inr (.inr (.inl ?_)))
      rw [hre, if_neg hin]
      exact Finset.mem_insert_self _ _

theorem Awaited.run (hm : m.Awaited sources) (h : m.run sources n failed = some m') :
    m'.Awaited sources := by
  have hahead := hm.ahead
  unfold MirrorSweeper.run at h
  cases hr : m.runner with
  | passing total rest =>
    cases rest with
    | nil =>
      simp only [hr, Option.some.injEq] at h
      subst h
      refine hm.moveOn rfl rfl (Finset.Subset.refl _) rfl ?_ ?_ ?_ ?_
      · simp only
        split_ifs
        · exact fun s hs => hs
        · exact fun s hs => by cases hs
      · simp only
        split_ifs <;> exact fun s hs => by cases hs
      · simp only
        split_ifs <;> exact fun s hs => by cases hs
      · intro s _ hs
        rw [hr] at hs
        exact .inl (by simpa [Runner.ahead] using hs)
    | cons source rest =>
      simp only [hr, Option.some.injEq] at h
      subst h
      exact hm.beginSweep (by rw [hr]; rfl) rfl (fun s hs => by cases hs) rfl
  | sweeping total source rest =>
    simp only [hr, Option.some.injEq] at h
    subst h
    rw [hr] at hahead
    exact hm.moveOn rfl rfl (Finset.erase_subset _ _) rfl hahead (fun s hs => by cases hs)
      (fun s hs => by cases hs) (fun s _ => by rw [hr]; simp [endSweep, Runner.ahead])
  | waiting =>
    by_cases hw : m.wake = true
    · simp only [hr, hw, if_true, Option.some.injEq] at h
      subst h
      exact hm.moveOn rfl rfl (Finset.Subset.refl _) rfl (fun s hs => hs) (fun s hs => by cases hs)
        (fun s hs => by cases hs) (fun s hs _ => .inr (.inl (hm.registered s hs)))
    · simp [hr, hw] at h
  | scanning rest =>
    rw [hr] at hahead
    cases rest with
    | nil =>
      simp only [hr, Option.some.injEq] at h
      subst h
      exact hm.moveOn rfl rfl (Finset.Subset.refl _) rfl (fun s hs => by cases hs)
        (fun s hs => by cases hs)
        (fun s hs => by cases hs) (fun s _ => by rw [hr]; simp [Runner.ahead])
    | cons source rest =>
      by_cases hdirty : source ∈ m.dirty
      · simp only [hr, hdirty, if_true, Option.some.injEq] at h
        subst h
        refine hm.moveOn rfl rfl (Finset.Subset.refl _) rfl hahead ?_ (fun s hs => by cases hs)
          (fun s _ => by rw [hr]; simp [Runner.ahead])
        rintro s ⟨⟩
        exact hahead source List.mem_cons_self
      · simp only [hr, hdirty, if_false, Option.some.injEq] at h
        subst h
        refine hm.moveOn rfl rfl (Finset.Subset.refl _) rfl
          (fun s hs => hahead s (List.mem_cons_of_mem _ hs)) (fun s hs => by cases hs)
          (fun s hs => by cases hs) ?_
        intro s hs
        have hne : s ≠ source := fun heq => hdirty (heq ▸ hs)
        rw [hr]
        simp [Runner.ahead, hne]
  | flagged source rest =>
    simp only [hr, Option.some.injEq] at h
    subst h
    refine hm.beginSweep (by rw [hr]; rfl) rfl ?_ rfl
    rintro s ⟨⟩
    rfl
  | signalled source rest =>
    have hpresent := hm.present
    simp only [hr, Option.some.injEq] at h
    subst h
    rw [hr] at hahead hpresent
    refine hm.moveOn rfl rfl (Finset.erase_subset _ _) rfl ?_ ?_ ?_ (fun s _ => ?_)
    · cases failed <;> exact hahead
    · cases failed
      · exact fun s hs => by cases hs
      · exact hpresent
    · cases failed
      · exact fun s hs => by cases hs
      · rintro s ⟨⟩
        exact Finset.notMem_erase _ _
    · rw [hr]
      cases failed <;> simp [endSweep, Runner.ahead]
  | failed source rest =>
    simp only [hr, Option.some.injEq] at h
    subst h
    exact hm.reflag hr rfl rfl rfl rfl rfl rfl
  | stopped => simp [hr] at h

theorem Awaited.step (hm : m.Awaited sources) {e : SweepEvent} (hC : m.FreshNotify e)
    (h : m.step sources e = some m') : m'.Awaited sources := by
  cases e with
  | notify name => cases h; exact hm.notify hC
  | send =>
    simp only [MirrorSweeper.step, Option.ite_none_right_eq_some, Option.some.injEq] at h
    obtain ⟨-, rfl⟩ := h
    exact ⟨hm.ahead, hm.present, hm.failing, hm.registered, hm.reflagged, fun _ _ => .inl rfl⟩
  | run n failed => exact hm.run h
  | interval =>
    simp only [MirrorSweeper.step, Option.ite_none_right_eq_some, Option.some.injEq] at h
    obtain ⟨-, rfl⟩ := h
    exact hm.moveOn rfl rfl (Finset.Subset.refl _) rfl (fun s hs => hs) (fun s hs => by cases hs)
      (fun s hs => by cases hs) (fun s hs _ => .inr (.inl (hm.registered s hs)))
  | cancel =>
    simp only [MirrorSweeper.step, Option.ite_none_right_eq_some, Option.some.injEq] at h
    obtain ⟨-, rfl⟩ := h
    exact hm.moveOn rfl rfl (Finset.Subset.refl _) rfl (fun s hs => by cases hs)
      (fun s hs => by cases hs)
      (fun s hs => by cases hs) (fun s hs _ => .inr (.inr rfl))

end step

/-! From a signal to the sweep it brings. -/

/-- The source waits for its sweep, of which `a` had started when it was signalled. -/
def Signalled (s : String) (a : ℕ) (m : MirrorSweeper) : Prop :=
  s ∈ m.dirty ∧ s ∉ m.reflagged ∧ m.attempts s = a

def SweptOrStopped (s : String) (a : ℕ) (m : MirrorSweeper) : Prop :=
  a < m.attempts s ∨ m.runner = .stopped

section stages
variable {sources : List String} {m m' : MirrorSweeper} {e : SweepEvent} {s : String} {a : ℕ}

theorem Signalled.beginSweep (hp : m.Signalled s a) (source : String) (runner : Runner) :
    s = source ∧ (m.beginSweep source runner).SweptOrStopped s a ∨
      s ≠ source ∧ (m.beginSweep source runner).Signalled s a := by
  obtain ⟨hd, hre, ha⟩ := hp
  by_cases hs : s = source
  · subst hs
    exact .inl ⟨rfl, .inl (by simp [MirrorSweeper.beginSweep, ha])⟩
  · refine .inr ⟨hs, Finset.mem_erase.mpr ⟨hs, hd⟩, fun h => hre (Finset.mem_of_mem_erase h), ?_⟩
    simp [MirrorSweeper.beginSweep, hs, ha]

/-- What a step of any other thread leaves of the signal and of the runner. -/
structure Aside (sources : List String) (s : String) (a : ℕ) (m m' : MirrorSweeper) : Prop where
  signalled : m'.Signalled s a
  wake : m.wake = true → m'.wake = true
  runner : m'.runner = m.runner ∨ m.runner = .waiting ∧ m'.runner = .passing 0 sources

theorem aside_step (hp : m.Signalled s a) (h : m.step sources e = some m')
    (he : e.thread ≠ some .run) :
    m'.SweptOrStopped s a ∨ Aside sources s a m m' := by
  cases e with
  | notify name =>
    cases h
    refine .inr ?_
    unfold MirrorSweeper.notify
    simp only
    split_ifs
    · exact ⟨hp, fun h => h, .inl rfl⟩
    · exact ⟨⟨Finset.mem_insert_of_mem hp.1, hp.2⟩, fun h => h, .inl rfl⟩
    · exact ⟨hp, fun h => h, .inl rfl⟩
  | send =>
    simp only [MirrorSweeper.step, Option.ite_none_right_eq_some, Option.some.injEq] at h
    obtain ⟨-, rfl⟩ := h
    exact .inr ⟨hp, fun _ => rfl, .inl rfl⟩
  | run n failed => exact absurd rfl he
  | interval =>
    simp only [MirrorSweeper.step, Option.ite_none_right_eq_some, Option.some.injEq] at h
    obtain ⟨hr, rfl⟩ := h
    exact .inr ⟨hp, fun h => h, .inr ⟨hr, rfl⟩⟩
  | cancel =>
    simp only [MirrorSweeper.step, Option.ite_none_right_eq_some, Option.some.injEq] at h
    obtain ⟨-, rfl⟩ := h
    exact .inl (.inr rfl)

/-- The runner has come nearer to whatever `d` measures the distance to, unless that is `s`. -/
structure Nearer (s : String) (m m' : MirrorSweeper) : Prop where
  wake : m'.wake = m.wake
  ahead : s ∈ m.runner.ahead → s ∈ m'.runner.ahead
  left : ∀ d : List String → ℕ, (∀ x l, s ≠ x → d (x :: l) = d l + 1) →
    m'.runner.left d < m.runner.left d

theorem Signalled.sweepNext (hp : m.Signalled s a) {next : Runner}
    (hahead : m.runner.ahead = source :: rest) (hnext : next.ahead = rest)
    (hleft : ∀ d : List String → ℕ, d (source :: rest) = d rest + 1 → next.left d < m.runner.left d)
    :
    (m.beginSweep source next).SweptOrStopped s a ∨
      (m.beginSweep source next).Signalled s a ∧ Nearer s m (m.beginSweep source next) := by
  rcases hp.beginSweep source next with ⟨-, hq⟩ | ⟨hne, hq⟩
  · exact .inl hq
  · refine .inr ⟨hq, rfl, fun h => ?_, fun d hd => hleft d (hd source rest hne)⟩
    rw [hahead] at h
    change s ∈ next.ahead
    rw [hnext]
    exact (List.mem_cons.mp h).resolve_left hne

/-- A step of `Run` sweeps the signalled source, starts its loop over the sources, or goes on in the
loop it is in. -/
theorem signalled_run (hp : m.Signalled s a) (h : m.run sources n failed = some m') :
    m'.SweptOrStopped s a ∨ m'.Signalled s a ∧
      (m.runner.ahead = [] ∧ m'.runner.ahead = sources ∨ Nearer s m m') := by
  unfold MirrorSweeper.run at h
  cases hr : m.runner with
  | passing total rest =>
    cases rest with
    | nil =>
      simp only [hr, Option.some.injEq] at h
      subst h
      refine .inr ⟨hp, ?_⟩
      by_cases ht : total > 0
      · exact .inl ⟨rfl, by rw [if_pos ht]; rfl⟩
      · refine .inr ⟨rfl, fun h => ?_, fun d _ => ?_⟩
        · rw [hr] at h; cases h
        · simp [hr, ht, Runner.left]
    | cons source rest =>
      simp only [hr, Option.some.injEq] at h
      subst h
      have hahead : m.runner.ahead = source :: rest := by rw [hr]; rfl
      refine (hp.sweepNext hahead rfl fun d hd => ?_).imp_right (.imp_right .inr)
      simp only [hr, Runner.left, hd]
      omega
  | sweeping total source rest =>
    simp only [hr, Option.some.injEq] at h
    subst h
    exact .inr ⟨hp, .inr ⟨rfl, fun h => by rw [hr] at h; exact h, fun d _ => by
      simp [hr, endSweep, Runner.left]⟩⟩
  | waiting =>
    by_cases hw : m.wake = true
    · simp only [hr, hw, if_true, Option.some.injEq] at h
      subst h
      exact .inr ⟨hp, .inl ⟨rfl, rfl⟩⟩
    · simp [hr, hw] at h
  | scanning rest =>
    cases rest with
    | nil =>
      simp only [hr, Option.some.injEq] at h
      subst h
      exact .inr ⟨hp, .inr ⟨rfl, fun h => by rw [hr] at h; exact h,
        fun d _ => by simp [hr, Runner.left]⟩⟩
    | cons source rest =>
      by_cases hdirty : source ∈ m.dirty
      · simp only [hr, hdirty, if_true, Option.some.injEq] at h
        subst h
        exact .inr ⟨hp, .inr ⟨rfl, fun h => by rw [hr] at h; exact h, fun d _ => by
          simp [hr, Runner.left]⟩⟩
      · simp only [hr, hdirty, if_false, Option.some.injEq] at h
        subst h
        have hne : s ≠ source := fun heq => hdirty (heq ▸ hp.1)
        refine .inr ⟨hp, .inr ⟨rfl, fun h => ?_, fun d hd => ?_⟩⟩
        · rw [hr] at h
          exact (List.mem_cons.mp h).resolve_left hne
        · simp only [hr, Runner.left, hd source rest hne]
          omega
  | flagged source rest =>
    simp only [hr, Option.some.injEq] at h
    subst h
    have hahead : m.runner.ahead = source :: rest := by rw [hr]; rfl
    refine (hp.sweepNext hahead rfl fun d hd => ?_).imp_right (.imp_right .inr)
    simp only [hr, Runner.left, hd]
    omega
  | signalled source rest =>
    simp only [hr, Option.some.injEq] at h
    subst h
    refine .inr ⟨hp, .inr ⟨rfl, fun h => ?_, fun d _ => ?_⟩⟩
    · rw [hr] at h
      cases failed <;> exact h
    · cases failed <;> simp [hr, endSweep, Runner.left]
  | failed source rest =>
    simp only [hr, Option.some.injEq] at h
    subst h
    obtain ⟨hd, hre, ha⟩ := hp
    refine .inr ⟨⟨Finset.mem_insert_of_mem hd, ?_, ha⟩,
      .inr ⟨rfl, fun h => by rw [hr] at h; exact h,
      fun d _ => by simp [hr, Runner.left]⟩⟩
    -- a flag that was raised meanwhile does not count as raised by the failure
    simp only
    split_ifs with hdirty
    · exact hre
    · exact fun h => (Finset.mem_insert.mp h).elim (fun heq => hdirty (heq ▸ hd)) hre
  | stopped => simp [hr] at h

theorem ahead_step (hp : m.Signalled s a) (hs : s ∈ m.runner.ahead)
    (h : m.step sources e = some m') :
    m'.SweptOrStopped s a ∨ (m'.Signalled s a ∧ s ∈ m'.runner.ahead) ∧
      (m'.runner.left (·.idxOf s) < m.runner.left (·.idxOf s) ∨
        m'.runner.left (·.idxOf s) = m.runner.left (·.idxOf s) ∧ e.thread ≠ some .run) := by
  by_cases he : e.thread = some .run
  · cases e with
    | run n failed =>
      rcases signalled_run hp h with hq | ⟨hp', ⟨hnil, -⟩ | hnear⟩
      · exact .inl hq
      · rw [hnil] at hs
        cases hs
      · exact .inr ⟨⟨hp', hnear.ahead hs⟩,
          .inl (hnear.left _ fun x l hne => List.idxOf_cons_ne l (Ne.symm hne))⟩
    | notify | send | interval | cancel => cases he
  · rcases aside_step hp h he with hq | ⟨hp', -, hr | ⟨hr, -⟩⟩
    · exact .inl hq
    · exact .inr ⟨⟨hp', by rwa [hr]⟩, .inr ⟨by rw [hr], he⟩⟩
    · rw [hr] at hs
      cases hs

theorem wake_step (hp : m.Signalled s a) (hs : s ∈ sources) (hw : m.wake = true)
    (h : m.step sources e = some m') :
    (m'.SweptOrStopped s a ∨ m'.Signalled s a ∧ s ∈ m'.runner.ahead) ∨
      (m'.Signalled s a ∧ m'.wake = true) ∧
        (m'.runner.left List.length < m.runner.left List.length ∨
        m'.runner.left List.length = m.runner.left List.length ∧ e.thread ≠ some .run) := by
  by_cases he : e.thread = some .run
  · cases e with
    | run n failed =>
      rcases signalled_run hp h with hq | ⟨hp', ⟨-, hall⟩ | hnear⟩
      · exact .inl (.inl hq)
      · exact .inl (.inr ⟨hp', hall ▸ hs⟩)
      · exact .inr ⟨⟨hp', hnear.wake.trans hw⟩, .inl (hnear.left _ fun x l _ => rfl)⟩
    | notify | send | interval | cancel => cases he
  · rcases aside_step hp h he with hq | ⟨hp', hw', hr | ⟨-, hr⟩⟩
    · exact .inl (.inl hq)
    · exact .inr ⟨⟨hp', hw' hw⟩, .inr ⟨by rw [hr], he⟩⟩
    · exact .inl (.inr ⟨hp', by rw [hr]; exact hs⟩)

theorem signalled_step (hp : m.Signalled s a) (h : m.step sources e = some m') :
    m'.SweptOrStopped s a ∨ m'.Signalled s a := by
  by_cases he : e.thread = some .run
  · cases e with
    | run n failed => exact (signalled_run hp h).imp_right And.left
    | notify | send | interval | cancel => cases he
  · exact (aside_step hp h he).imp_right Aside.signalled

theorem run_sending (h : m.run sources n failed = some m') :
    m'.sending = m.sending := by
  unfold MirrorSweeper.run at h
  split at h
  all_goals
    first
    | (cases h; done)
    | (cases h; rfl)
    | (split_ifs at h <;> cases h <;> rfl)

theorem sending_step (hp : m.Signalled s a) (hs : 0 < m.sending) (h : m.step sources e = some m') :
    m'.SweptOrStopped s a ∨ m'.Signalled s a ∧
      (e.thread = some .send ∧ m'.wake = true ∨ e.thread ≠ some .send ∧ 0 < m'.sending) := by
  refine (signalled_step hp h).imp_right fun hp' => ⟨hp', ?_⟩
  cases e with
  | notify name =>
    cases h
    refine .inr ⟨by rintro ⟨⟩, ?_⟩
    unfold MirrorSweeper.notify
    simp only
    split_ifs
    · exact hs
    · exact Nat.succ_pos _
    · exact hs
  | send =>
    simp only [MirrorSweeper.step, Option.ite_none_right_eq_some, Option.some.injEq] at h
    obtain ⟨-, rfl⟩ := h
    exact .inl ⟨rfl, rfl⟩
  | run n failed => exact .inr ⟨by rintro ⟨⟩, (run_sending h).symm ▸ hs⟩
  | interval | cancel =>
    simp only [MirrorSweeper.step, Option.ite_none_right_eq_some, Option.some.injEq] at h
    obtain ⟨-, rfl⟩ := h
    exact .inr ⟨by rintro ⟨⟩, hs⟩

end stages

section run
variable {sources : List String} {r : Execution (step sources)} {s : String} {a : ℕ}

theorem signal_swept (hm : ∀ k, (r.state k).Awaited sources)
    (hf : r.Fair SweepEvent.thread Active) : r.LeadsTo (Signalled s a) (SweptOrStopped s a) := by
  have hahead : r.LeadsTo (fun m => m.Signalled s a ∧ s ∈ m.runner.ahead) (SweptOrStopped s a) := by
    refine hf.leadsTo .run (fun m => m.runner.left (·.idxOf s)) (fun k hk => ?_)
      (fun k e hk he => ahead_step hk.1 hk.2 (r.move k e he))
    constructor
    · intro hr
      rw [hr] at hk
      cases hk.2
    · intro hr
      rw [hr] at hk
      cases hk.2
  have hwake : r.LeadsTo (fun m => m.Signalled s a ∧ m.wake = true) (SweptOrStopped s a) := by
    have hto : r.LeadsTo (fun m => (m.Signalled s a ∧ m.wake = true) ∧ m.runner ≠ .stopped)
        (fun m => m.SweptOrStopped s a ∨ m.Signalled s a ∧ s ∈ m.runner.ahead) := by
      refine hf.leadsTo .run (fun m => m.runner.left List.length)
        (fun k hk => ⟨hk.2, fun _ => hk.1.2⟩) (fun k e hk he => ?_)
      rcases wake_step hk.1.1 ((hm k).registered s hk.1.1.1) hk.1.2 (r.move k e he) with hq | ⟨hp,
        hlt⟩
      · exact .inl hq
      · by_cases hr : (r.state (k + 1)).runner = .stopped
        · exact .inl (.inl (.inr hr))
        · exact .inr ⟨⟨hp, hr⟩, hlt⟩
    intro k hk
    by_cases hr : (r.state k).runner = .stopped
    · exact ⟨k, le_rfl, .inr hr⟩
    · exact hto.trans (.or (.of_now fun _ h => h) hahead) k ⟨hk, hr⟩
  have hsend : r.LeadsTo (fun m => m.Signalled s a ∧ 0 < m.sending) (SweptOrStopped s a) := by
    have hto : r.LeadsTo (fun m => m.Signalled s a ∧ 0 < m.sending)
        (fun m => m.SweptOrStopped s a ∨ m.Signalled s a ∧ m.wake = true) := by
      refine hf.leadsTo_next .send (fun k hk => hk.2) (fun k e hk he ht => ?_)
        (fun k e hk he ht => ?_)
      · rcases sending_step hk.1 hk.2 (r.move k e he) with hq | ⟨hp, ⟨h, -⟩ | ⟨-, hs⟩⟩
        · exact .inr (.inl hq)
        · exact absurd h ht
        · exact .inl ⟨hp, hs⟩
      · rcases sending_step hk.1 hk.2 (r.move k e he) with hq | ⟨hp, ⟨-, hw⟩ | ⟨h, -⟩⟩
        · exact .inl hq
        · exact .inr ⟨hp, hw⟩
        · exact absurd ht h
    exact hto.trans (.or (.of_now fun _ h => h) hwake)
  intro k hk
  rcases (hm k).awaited s hk.1 with h | h | h | h | h
  · exact hwake k ⟨hk, h⟩
  · exact hsend k ⟨hk, h⟩
  · exact hahead k ⟨hk, h⟩
  · exact absurd h hk.2.1
  · exact ⟨k, le_rfl, .inr h⟩

end run

/-- In every run of the sweeper in which no `Notify` meets a flag that a failed sweep has raised:
when `Run` is blocked and a source is dirty, the wake channel holds a token or a `Notify` is about
to send one, or no `Notify` has named the source since its last sweep ended. And a signal for a
source brings a sweep of it, whether or not the reconcile interval ever elapses, unless `Run` is
stopped first. -/
theorem no_source_stranded (sources : List String) (r : Execution (step sources))
    (h₀ : r.state 0 = initial sources) (hfresh : r.Along FreshNotify) :
    (∀ k s, (r.state k).runner = .waiting → s ∈ (r.state k).dirty →
      (r.state k).wake = true ∨ 0 < (r.state k).sending ∨ s ∉ (r.state k).named) ∧
    (r.Fair SweepEvent.thread Active → ∀ k name, r.event k = some (.notify name) →
      trimSpace name ∈ sources →
      ∃ j, k < j ∧ ((r.state k).attempts (trimSpace name) < (r.state j).attempts (trimSpace name) ∨
        (r.state j).runner = .stopped)) := by
  have hm : ∀ k, (r.state k).Awaited sources :=
    r.invariant hfresh (h₀ ▸ Awaited.initial sources) (fun _ _ _ hC h hP => hP.step hC h)
  refine ⟨fun k s hr hs => ?_, fun hf k name hk hin => ?_⟩
  · rcases (hm k).awaited s hs with h | h | h | h | h
    · exact .inl h
    · exact .inr (.inl h)
    · rw [hr] at h
      cases h
    · exact .inr (.inr ((hm k).reflagged s h))
    · rw [hr] at h
      cases h
  · have hnext : r.state (k + 1) = (r.state k).notify sources name :=
      (Option.some.inj (r.move k _ hk)).symm
    have hsig : (r.state (k + 1)).Signalled (trimSpace name)
        ((r.state k).attempts (trimSpace name)) := by
      have hnot : trimSpace name ∉ (r.state k).reflagged := hfresh k _ hk
      rw [hnext]
      unfold MirrorSweeper.notify
      simp only [not_true_eq_false, if_false, hin]
      split_ifs with hd
      · exact ⟨hd, hnot, rfl⟩
      · exact ⟨Finset.mem_insert_self _ _, hnot, rfl⟩
    obtain ⟨j, hj, hq⟩ := signal_swept hm hf (k + 1) hsig
    exact ⟨j, hj, hq⟩

instance (m : MirrorSweeper) : ∀ e, Decidable (m.FreshNotify e)
  | .notify name => inferInstanceAs (Decidable (trimSpace name ∉ m.reflagged))
  | .send | .run _ _ | .interval | .cancel => .isTrue trivial

def still (m : MirrorSweeper) : Bool :=
  decide (m.runner = .waiting) && !m.wake && decide (m.sending = 0)

theorem not_active_of_still {m : MirrorSweeper} (h : m.still = true) (t : Thread) :
    ¬ m.Active t := by
  simp only [still, Bool.and_eq_true, decide_eq_true_eq, Bool.not_eq_true'] at h
  obtain ⟨⟨hr, hw⟩, hs⟩ := h
  cases t with
  | run => exact fun h => by simp [h.2 hr] at hw
  | send => exact fun h => by simp [Active, hs] at h

/-- One source: the first pass sweeps nothing, a signal wakes `Run`, that sweep fails, and the
source is signalled again. -/
def strandedRun : Execution (step ["orders"]) :=
  .ofList (initial ["orders"]) [.run 0 false, .run 0 false, .run 0 false, .notify "orders", .send,
    .run 0 false, .run 0 false, .run 0 false, .run 0 true, .run 0 false, .run 0 false,
    .notify "orders"] (by decide +kernel)

/-- The second signal meets the flag that the failure has raised and sends no token: the dirty
source is named, `Run` stays blocked, and no sweep follows. -/
theorem signal_after_failure_stranded : strandedRun.state 0 = initial ["orders"] ∧
    ((strandedRun.state 12).runner = .waiting ∧ "orders" ∈ (strandedRun.state 12).dirty ∧
      ¬ ((strandedRun.state 12).wake = true ∨ 0 < (strandedRun.state 12).sending ∨
        "orders" ∉ (strandedRun.state 12).named)) ∧
    strandedRun.Fair SweepEvent.thread Active ∧ strandedRun.event 11 = some (.notify "orders") ∧
    ∀ j, 11 < j →
      ¬ ((strandedRun.state 11).attempts "orders" < (strandedRun.state j).attempts "orders" ∨
      (strandedRun.state j).runner = .stopped) := by
  refine ⟨rfl, by decide +kernel, Execution.ofList_fair (not_active_of_still ?_), rfl,
    fun j hj => ?_⟩
  · decide +kernel
  · have hend : strandedRun.state j = strandedRun.state 12 := Execution.ofList_state_end hj
    rw [hend]
    decide +kernel

/-- The signal is answered, and `Run` waits again. -/
def answeredRun : Execution (step ["orders"]) :=
  .ofList (initial ["orders"]) [.run 0 false, .run 0 false, .run 0 false, .notify "orders", .send,
    .run 0 false, .run 0 false, .run 0 false, .run 1 false, .run 0 false] (by decide +kernel)

theorem signal_answered : trimSpace "orders" ∈ ["orders"] ∧
    (∀ k s, (answeredRun.state k).runner = .waiting → s ∈ (answeredRun.state k).dirty →
      (answeredRun.state k).wake = true ∨ 0 < (answeredRun.state k).sending ∨
        s ∉ (answeredRun.state k).named) ∧
    ∃ j, 3 < j ∧ ((answeredRun.state 3).attempts (trimSpace "orders") <
      (answeredRun.state j).attempts (trimSpace "orders") ∨
        (answeredRun.state j).runner = .stopped) := by
  have hname : trimSpace "orders" ∈ ["orders"] := by decide +kernel
  have hfresh : answeredRun.Along FreshNotify := Execution.ofList_along (by decide +kernel)
  have hfair : answeredRun.Fair SweepEvent.thread Active :=
    Execution.ofList_fair (not_active_of_still (by decide +kernel))
  have h := no_source_stranded ["orders"] answeredRun rfl hfresh
  exact ⟨hname, h.1, h.2 hfair 3 "orders" rfl hname⟩

end MirrorSweeper

end Foundation.Hermes
