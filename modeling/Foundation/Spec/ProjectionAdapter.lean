import Foundation.Lib.Reached
import Mathlib.Data.Int.Order.Basic
import Mathlib.Tactic

/-! `subscribeProjection` of `createHermesProjectionAdapter` (`runtimeWorkbench.ts`), one turn of
the event loop a step. Without a normalizer a flush is one turn; with one it goes on when the
promise of the batch is settled. -/

namespace Foundation.Workbench

variable {E M : Type}

structure EventPipelineOptions where
  maxBatchSize : Option ℤ := none
  maxQueuedEvents : Option ℤ := none

def EventPipelineOptions.batchSize (o : EventPipelineOptions) : ℕ :=
  (max 1 (o.maxBatchSize.getD 128)).toNat

def EventPipelineOptions.queueBound (o : EventPipelineOptions) : ℕ :=
  (max (o.batchSize : ℤ) (o.maxQueuedEvents.getD 4096)).toNat

/-- A normalizer makes of a batch what the local normalization makes of its events. -/
structure ProjectionNormalizer (normalize : E → Option M) where
  normalizeMutations : List E → List M
  contract : ∀ batch, normalizeMutations batch = batch.filterMap normalize

/-- The variables of a subscription, with what arrived and what the listener received. `timer` is a
scheduled run that has not been cancelled, `scheduledCancel` whether its handle is kept. -/
structure Subscription (E M : Type) where
  closed : Bool := false
  scheduledCancel : Bool := false
  timer : Bool := false
  flushing : Option (List E) := none
  queue : List E := []
  arrived : List E := []
  received : List M := []

inductive Turn (E : Type) where
  | event (event : E)
  | timer
  | normalized
  | failed
  | close

def Subscription.schedule (s : Subscription E M) : Subscription E M :=
  { s with scheduledCancel := true, timer := true }

def Subscription.cancel (s : Subscription E M) : Subscription E M :=
  { s with scheduledCancel := false, timer := false }

/-- The mutations of the batch and the `finally` block. -/
def Subscription.finish (s : Subscription E M) (mutations : List M) : Subscription E M :=
  let s := { s with
    received := if s.closed then s.received else s.received ++ mutations, flushing := none }
  if !s.closed && !s.queue.isEmpty then s.schedule else s

variable {normalize : E → Option M}

def Subscription.flush (o : EventPipelineOptions)
    (normalizer : Option (ProjectionNormalizer normalize)) (s : Subscription E M) :
    Subscription E M :=
  if s.closed || s.flushing.isSome || s.queue.isEmpty then s
  else
    let batch := s.queue.take o.batchSize
    let s :=
      { s with flushing := some batch, scheduledCancel := false, queue := s.queue.drop o.batchSize }
    if normalizer.isSome then s else s.finish (batch.filterMap normalize)

def Subscription.scheduleFlush (s : Subscription E M) : Subscription E M :=
  if s.scheduledCancel || s.flushing.isSome then s else s.schedule

def Subscription.onEvent (o : EventPipelineOptions)
    (normalizer : Option (ProjectionNormalizer normalize)) (s : Subscription E M) (event : E) :
    Subscription E M :=
  if s.closed then s
  else if s.queue.length ≥ o.queueBound then
    { s with arrived := s.arrived ++ [event], received := s.received ++ (normalize event).toList }
  else
    let s := { s with arrived := s.arrived ++ [event], queue := s.queue ++ [event] }
    if s.queue.length ≥ o.batchSize then s.cancel.flush o normalizer else s.scheduleFlush

def step (o : EventPipelineOptions) (normalizer : Option (ProjectionNormalizer normalize))
  (s : Subscription E M) :
    Turn E → Option (Subscription E M)
  | .event event => some (s.onEvent o normalizer event)
  | .timer => if s.timer then some ({ s with timer := false }.flush o normalizer) else none
  | .normalized =>
    match normalizer, s.flushing with
    | some n, some batch => some (s.finish (n.normalizeMutations batch))
    | _, _ => none
  | .failed =>
    match s.flushing with
    | some batch => some (s.finish (batch.filterMap normalize))
    | none => none
  | .close => some { s.cancel with closed := true, queue := [] }

end Foundation.Workbench
