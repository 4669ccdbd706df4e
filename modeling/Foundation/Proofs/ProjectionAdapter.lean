import Foundation.Spec.ProjectionAdapter

/-! Order of delivery. What the listener has, the batch in flight and the queue are together what
arrived, in order, as long as no event is let past a full queue. -/

namespace Foundation.Workbench

variable {E M : Type} {normalize : E →
  Option M} {normalizer : Option (ProjectionNormalizer normalize)}
  {o : EventPipelineOptions} {s s' : Subscription E M}

/-- The listener has the mutations of the events up to those that wait, in their order. -/
def InOrder (normalize : E → Option M) (s : Subscription E M) : Prop :=
  s.received ++ (s.flushing.getD [] ++ s.queue).filterMap normalize = s.arrived.filterMap normalize

structure Inv (normalize : E → Option M) (s : Subscription E M) : Prop where
  handle : s.scheduledCancel = s.timer
  armed : s.timer = true → s.closed = false ∧ s.flushing = none ∧ s.queue ≠ []
  woken : s.queue ≠ [] → s.flushing ≠ none ∨ s.timer = true
  emptied : s.closed = true → s.queue = []
  order : s.closed = false → InOrder normalize s

theorem Inv.start : Inv normalize ({} : Subscription E M) := by
  refine ⟨rfl, ?_, ?_, fun _ => rfl, fun _ => rfl⟩ <;> simp

theorem Inv.schedule (hclosed : s.closed = false) (hflushing : s.flushing = none)
    (hqueue : s.queue ≠ []) (horder : InOrder normalize s) : Inv normalize s.schedule :=
  ⟨rfl, fun _ => ⟨hclosed, hflushing, hqueue⟩, fun _ => .inr rfl,
    fun hc => Bool.noConfusion (hclosed.symm.trans hc),
    fun _ => horder⟩

/-! ### A flush -/

theorem finish_of_closed (h : s.closed = true) (mutations : List M) :
    s.finish mutations = { s with flushing := none } := by
  simp [Subscription.finish, h]

theorem finish_of_open (h : s.closed = false) (mutations : List M) :
    s.finish mutations = if s.queue = [] then
      { s with received := s.received ++ mutations, flushing := none }
      else Subscription.schedule
        { s with received := s.received ++ mutations, flushing := none } := by
  by_cases hq : s.queue = [] <;> simp [Subscription.finish, h, hq]

theorem Inv.finish {batch : List E} (hflushing : s.flushing = some batch) (htimer : s.timer = false)
    (hhandle : s.scheduledCancel = false) (hclosed : s.closed = true → s.queue = [])
    (horder : s.closed = false → InOrder normalize s) :
    Inv normalize (s.finish (batch.filterMap normalize)) := by
  cases hc : s.closed with
  | true =>
    rw [finish_of_closed hc]
    refine ⟨hhandle.trans htimer.symm, ?_, ?_, hclosed, ?_⟩ <;> simp [htimer, hclosed hc, hc]
  | false =>
    have hdone :
        InOrder normalize
        { s with received := s.received ++ batch.filterMap normalize, flushing := none } := by
      simpa [InOrder, hflushing] using horder hc
    rw [finish_of_open hc]
    split_ifs with hq
    · refine ⟨hhandle.trans htimer.symm, ?_, ?_, fun _ => hq, fun _ => hdone⟩ <;> simp [htimer, hq]
    · exact Inv.schedule hc rfl hq hdone

/-- A flush that no timer waits for, of a queue that is not empty. -/
theorem Inv.flush (hclosed : s.closed = false) (hqueue : s.queue ≠ []) (htimer : s.timer = false)
    (hhandle : s.flushing ≠ none → s.scheduledCancel = false) (horder : InOrder normalize s) :
    Inv normalize (s.flush o normalizer) := by
  cases hflushing : s.flushing with
  | some batch =>
    have hbusy : s.flushing ≠ none := by simp [hflushing]
    have hskip : s.flush o normalizer = s := by simp [Subscription.flush, hflushing]
    rw [hskip]
    exact ⟨(hhandle hbusy).trans htimer.symm, by simp [htimer],
      fun _ => .inl hbusy, by simp [hclosed], fun _ => horder⟩
  | none =>
    have hstarted : InOrder normalize { s with
        flushing := some (s.queue.take o.batchSize)
        scheduledCancel := false
        queue := s.queue.drop o.batchSize } := by
      simpa [InOrder, hflushing] using horder
    rw [Subscription.flush, if_neg (by simp [hclosed, hflushing, hqueue])]
    dsimp only
    split_ifs
    · refine ⟨htimer.symm, ?_, ?_, ?_, fun _ => hstarted⟩ <;> simp [htimer, hclosed]
    · exact Inv.finish rfl htimer rfl (by simp [hclosed]) fun _ => hstarted

/-! ### The turns -/

/-- No event arrives while the queue is full. -/
def Room (o : EventPipelineOptions) (s : Subscription E M) (t : Turn E) : Prop :=
  ∀ event, t = .event event → s.closed = true ∨ s.queue.length < o.queueBound

theorem Inv.onEvent (h : Inv normalize s) {event : E}
    (hroom : s.closed = true ∨ s.queue.length < o.queueBound) :
    Inv normalize (s.onEvent o normalizer event) := by
  rw [Subscription.onEvent]
  split_ifs with hclosed hfull
  · exact h
  · exact absurd hfull (Nat.not_le.mpr (hroom.resolve_left hclosed))
  · have hopen := Bool.eq_false_iff.mpr hclosed
    have hqueued :
        InOrder normalize
        { s with arrived := s.arrived ++ [event], queue := s.queue ++ [event] } := by
      have horder := h.order hopen
      simp only [InOrder, List.filterMap_append, ← List.append_assoc] at horder ⊢
      rw [horder]
    dsimp only
    split_ifs with hbatch
    · exact Inv.flush hopen (by simp [Subscription.cancel]) rfl (fun _ => rfl) hqueued
    · rw [Subscription.scheduleFlush]
      split_ifs with hbusy
      · have hwoken : s.flushing ≠ none ∨ s.timer = true := by
          rw [Bool.or_eq_true, h.handle] at hbusy
          exact hbusy.symm.imp_left Option.isSome_iff_ne_none.mp
        exact ⟨h.handle, fun ht => ⟨hopen, (h.armed ht).2.1, by simp⟩,
          fun _ => hwoken, by simp [hopen], fun _ => hqueued⟩
      · simp only [Bool.or_eq_true, not_or, Option.not_isSome_iff_eq_none] at hbusy
        exact Inv.schedule hopen hbusy.2 (by simp) hqueued

theorem Inv.finish_flight (h : Inv normalize s) {batch : List E}
    (hflushing : s.flushing = some batch) :
    Inv normalize (s.finish (batch.filterMap normalize)) := by
  have htimer : s.timer = false := by
    by_contra ht
    simpa [hflushing] using (h.armed (Bool.eq_true_of_not_eq_false ht)).2.1
  exact Inv.finish hflushing htimer (h.handle.trans htimer) h.emptied h.order

theorem Inv.step {t : Turn E} (h : Inv normalize s) (hroom : Room o s t)
    (hs : step o normalizer s t = some s') :
    Inv normalize s' := by
  cases t with
  | event event =>
    obtain rfl := Option.some.inj hs
    exact h.onEvent (hroom event rfl)
  | timer =>
    rw [Workbench.step] at hs
    split_ifs at hs with ht
    obtain rfl := Option.some.inj hs
    obtain ⟨hclosed, hflushing, hqueue⟩ := h.armed ht
    exact Inv.flush hclosed hqueue rfl (fun hbusy => absurd hflushing hbusy) (h.order hclosed)
  | normalized =>
    dsimp only [Workbench.step] at hs
    split at hs
    · next n batch hflushing =>
      obtain rfl := Option.some.inj hs
      exact n.contract batch ▸ h.finish_flight hflushing
    · cases hs
  | failed =>
    rw [Workbench.step] at hs
    split at hs
    · next batch hflushing =>
      obtain rfl := Option.some.inj hs
      exact h.finish_flight hflushing
    · cases hs
  | close =>
    obtain rfl := Option.some.inj hs
    refine ⟨rfl, ?_, ?_, fun _ => rfl, ?_⟩ <;> simp [Subscription.cancel]

/-- While no event meets a full queue the listener gets them all in order, and a queue that is not
empty has a flush running or scheduled. -/
theorem delivers_in_order (o : EventPipelineOptions)
    (normalizer : Option (ProjectionNormalizer normalize)) {s : Subscription E M}
    (h : Reached (step o normalizer) (Room o) {} s) :
    (s.closed = false → InOrder normalize s) ∧
      (s.flushing = none → s.timer = false → s.queue = []) := by
  have hinv : Inv normalize s := h.invariant Inv.start fun _ _ _ hroom hs hinv => hinv.step hroom hs
  refine ⟨hinv.order, fun hflushing htimer => ?_⟩
  by_contra hq
  obtain hbusy | hset := hinv.woken hq
  · exact hbusy hflushing
  · simp [htimer] at hset

def localNormalizer : ProjectionNormalizer (some : ℕ → Option ℕ) :=
  ⟨List.filterMap some, fun _ => rfl⟩

def oneByOne : EventPipelineOptions := ⟨some 1, some 2⟩

def hasRoom {E M : Type} (o : EventPipelineOptions) (s : Subscription E M) : Turn E → Bool
  | .event _ => s.closed || s.queue.length < o.queueBound
  | _ => true

/-- Three events of which the second and third wait for the normalizer, which then fails. -/
theorem failed_batch_in_order :
    ∃ s, Reached (step oneByOne (some localNormalizer)) (Room oneByOne) {} s ∧ s.received = [1] ∧
      s.arrived = [1, 2, 3] ∧
      s.timer = true ∧ InOrder some s := by
  obtain ⟨s, hs, hp⟩ :=
    Reached.exists_of_run (step oneByOne (some localNormalizer)) (C := Room oneByOne)
    (hasRoom oneByOne) (fun s => decide (s.closed = false ∧ s.received = [1] ∧
      s.arrived = [1, 2, 3] ∧ s.timer = true)) {}
    [.event 1, .event 2, .event 3, .failed]
    (fun s t ht event heq => by subst heq; simpa [hasRoom] using ht) (by decide +kernel)
      (by decide +kernel)
  obtain ⟨hopen, hreceived, harrived, htimer⟩ := of_decide_eq_true hp
  exact ⟨s, hs, hreceived, harrived, htimer,
    (delivers_in_order oneByOne (some localNormalizer) hs).1 hopen⟩

/-- One batch is with the normalizer and the queue is full: the fourth event overtakes the three
before it. -/
theorem overflow_overtakes_queue :
    ∃ s, Reached (step oneByOne (some localNormalizer)) (fun _ _ => True) {} s ∧ s.closed = false ∧
      s.arrived = [1, 2, 3, 4] ∧ s.received = [4] ∧ ¬ InOrder some s := by
  obtain ⟨s, hs, hp⟩ :=
    Reached.exists_of_run (step oneByOne (some localNormalizer)) (C := fun _ _ => True)
    (fun _ _ => true) (fun s => decide (s.closed = false ∧ s.arrived = [1, 2, 3, 4] ∧
      s.received = [4])) {}
    [.event 1, .event 2, .event 3, .event 4] (fun _ _ _ => trivial) (by decide +kernel)
      (by decide +kernel)
  obtain ⟨hopen, harrived, hreceived⟩ := of_decide_eq_true hp
  refine ⟨s, hs, hopen, harrived, hreceived, fun horder => ?_⟩
  simp [InOrder, harrived, hreceived] at horder

end Foundation.Workbench
