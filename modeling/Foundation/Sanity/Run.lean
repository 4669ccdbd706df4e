import Foundation.Sanity.Apply

/-! Rules for whole batches. A batch is a sweep of expired keys followed by its events, and
a property kept by each of these steps holds when the batch ends. -/

namespace Foundation.Hermes

open Go

variable {b : Batch} {m : AppliedMutation}

namespace Batch

def observe (b : Batch) (version : ℕ) : Batch :=
  { b with part := b.part.observeSourceWatermark version }

@[simp] theorem remember_entry (b : Batch) (source key : String) (version : ℕ) :
    (b.remember source version).entry key = b.entry key := by
  simp [remember, Batch.entry]

@[simp] theorem remember_spec (b : Batch) (source : String) (version : ℕ) :
    (b.remember source version).part.spec = b.part.spec :=
  Partition.rememberAppliedLocked_spec _ _ _

@[simp] theorem observe_spec (b : Batch) (version : ℕ) :
    (b.observe version).part.spec = b.part.spec :=
  rfl

@[simp] theorem observe_applyOrder (b : Batch) (version : ℕ) :
    (b.observe version).part.applyOrder = b.part.applyOrder := rfl

@[simp] theorem observe_tombstones (b : Batch) (version : ℕ) :
    (b.observe version).part.tombstones = b.part.tombstones := rfl

@[simp] theorem observe_epoch (b : Batch) (version : ℕ) :
    (b.observe version).part.epoch = b.part.epoch :=
  rfl

@[simp] theorem remember_part (b : Batch) (source : String) (version : ℕ) :
    (b.remember source version).part = b.part.rememberAppliedLocked source version := rfl

@[simp] theorem observe_entry (b : Batch) (version : ℕ) (key : String) :
    (b.observe version).entry key = b.entry key := rfl

theorem Keyed.store {entry : RecordEntry} (h : b.Keyed) (hf : b.Fits entry) :
    (b.store entry).Keyed := by
  constructor <;> intro key e he <;> rw [store_entry] at he <;> split_ifs at he with hk
  · cases he; exact hk.symm
  · exact h.key_eq key e he
  · cases he; exact hf.normal
  · exact h.normal key e he
  · cases he; rw [store_spec]; exact hf.domain_eq
  · rw [store_spec]; exact h.domain_eq key e he
  · cases he; rw [store_spec]; exact hf.collection_eq
  · rw [store_spec]; exact h.collection_eq key e he
  · cases he; exact hf.bytes_eq
  · exact h.bytes_eq key e he
  · cases he; rw [store_spec]; exact hf.lasting
  · rw [store_spec]; exact h.lasting key e he

theorem Keyed.bury (h : b.Keyed) (key source : String) (version : ℕ) :
    (b.bury key source version).Keyed := by
  constructor <;> intro k e he <;> rw [bury_entry] at he <;> split_ifs at he
  · exact h.key_eq k e he
  · exact h.normal k e he
  · rw [bury_spec]; exact h.domain_eq k e he
  · rw [bury_spec]; exact h.collection_eq k e he
  · exact h.bytes_eq k e he
  · rw [bury_spec]; exact h.lasting k e he

theorem Keyed.remember (h : b.Keyed) (source : String) (version : ℕ) :
    (b.remember source version).Keyed := by
  constructor <;> intro k e he <;> rw [remember_entry] at he
  · exact h.key_eq k e he
  · exact h.normal k e he
  · simpa [Batch.remember] using h.domain_eq k e he
  · simpa [Batch.remember] using h.collection_eq k e he
  · exact h.bytes_eq k e he
  · rw [remember_spec]; exact h.lasting k e he

theorem Keyed.observe (h : b.Keyed) (version : ℕ) : (b.observe version).Keyed :=
  ⟨h.key_eq, h.normal, h.domain_eq, h.collection_eq, h.bytes_eq, h.lasting⟩

theorem Keyed.mutates {b b' : Batch} (h : b.Keyed) (hm : b.Mutates m b') : b'.Keyed := by
  cases hm with
  | store entry op patches key version value fits => exact h.store fits
  | bury source op deletable => exact h.bury _ _ _

theorem Mutates.spec_eq {b b' : Batch} (hm : b.Mutates m b') :
    b'.part.spec = b.part.spec := by
  cases hm with
  | store entry => exact store_spec b entry
  | bury source => exact bury_spec b _ _ _

theorem Mutates.epoch_eq {b b' : Batch} (hm : b.Mutates m b') :
    b'.part.epoch = b.part.epoch := by
  cases hm with
  | store entry => exact store_epoch b entry
  | bury source => exact bury_epoch b _ _ _

theorem Mutates.owned {b b' : Batch} (hm : b.Mutates m b') : b.Owns m.record := by
  cases hm with
  | store entry op patches key version value fits =>
    have hown := owns_normal fits.normal fits.domain_eq fits.collection_eq
    rwa [Owns, ← (keyOf_eq_iff _ _).mp key] at hown
  | bury source op deletable owned => exact owned

end Batch

namespace Progress

@[simp] theorem settle_applied_batch (w : Progress) (event : Event) (version : ℕ) (b : Batch) :
    (w.settle event .applied version b).batch = b.observe version := rfl

def applyOne (now : Time) (w : Progress) (event : Event) : Progress :=
  match w.batch.applyEventLocked now event with
  | .error e => w.reject e
  | .ok (state, version, b) => w.settle event state version b

variable {env : Env} {w : Progress}

theorem applyLoop_cons {i : ℕ} (h : env.ctxDone i = false) (w : Progress) (event : Event)
    (rest : List Event) :
    applyLoop env i w (event :: rest) =
      applyLoop env (i + 1) (w.applyOne (env.clock i) event) rest := by
  rw [applyLoop, h]
  simp only [Bool.false_eq_true, if_false, applyOne]
  cases he : w.batch.applyEventLocked (env.clock i) event with
  | error e =>
    dsimp only
    rw [if_pos (Batch.applyEventLocked_error he)]
  | ok r => rfl

/-- Every event of a batch that would be applied meets `C` in the state it finds. -/
def Meets (C : Batch → Event → Prop) (env : Env) : ℕ → Progress → List Event → Prop
  | _, _, [] => True
  | i, w, event :: rest =>
    env.ctxDone i = false → (w.batch.Admits (env.clock i) event → C w.batch event) ∧
      Meets C env (i + 1) (w.applyOne (env.clock i) event) rest

theorem meets_true (env : Env) (i : ℕ) (w : Progress) (events : List Event) :
    Meets (fun _ _ => True) env i w events := by
  induction events generalizing i w with
  | nil => trivial
  | cons event rest ih => exact fun _ => ⟨fun _ => trivial, ih _ _⟩

theorem applyLoop_rule {C : Batch → Event → Prop} {P : Progress → Prop}
    (step : ∀ now w event, P w → (w.batch.Admits now event → C w.batch event) →
      P (w.applyOne now event)) (stop : ∀ w, P w → P { w with errs := w.errs ++ [.contextDone] })
    {i : ℕ} {events : List Event} (hm : Meets C env i w events) (hw : P w) :
    P (applyLoop env i w events) := by
  induction events generalizing i w with
  | nil => exact hw
  | cons event rest ih =>
    cases hc : env.ctxDone i with
    | true =>
      rw [applyLoop, if_pos hc]
      exact stop w hw
    | false =>
      rw [applyLoop_cons hc]
      exact ih (hm hc).2 (step _ w event hw (hm hc).1)

/-- What one round of the event loop can do. -/
theorem applyOne_cases (hk : w.batch.Keyed) (now : Time) (event : Event) :
    ((w.applyOne now event).accepted = w.accepted ∧
      (w.applyOne now event).result.applied = w.result.applied ∧
      ((w.applyOne now event).batch = w.batch ∨
        w.batch.part.alreadyAppliedLocked (trimSpace event.sourceID) (w.batch.eventVersion event) =
          false ∧
          (w.applyOne now event).batch =
            w.batch.remember (trimSpace event.sourceID) (w.batch.eventVersion event))) ∨
    w.batch.Admits now event ∧ ∃ mid, w.batch.Mutates ⟨acceptedOperation event.operation,
      event.record, w.batch.eventVersion event⟩ mid ∧
      (w.applyOne now event).accepted =
        w.accepted ++
          [⟨acceptedOperation event.operation, event.record, w.batch.eventVersion event⟩] ∧
      (w.applyOne now event).result.applied = w.result.applied + 1 ∧
      (w.applyOne now event).batch = (mid.remember (trimSpace event.sourceID)
        (w.batch.eventVersion event)).observe (w.batch.eventVersion event) := by
  unfold applyOne
  cases he : w.batch.applyEventLocked now event with
  | error e => exact .inl ⟨rfl, rfl, .inl rfl⟩
  | ok r =>
    obtain ⟨state, version, b⟩ := r
    rcases Batch.applyEventLocked_ok hk he with
      ⟨rfl, rfl, -⟩ | ⟨rfl, hnew, ⟨rfl, rfl⟩ | ⟨rfl, hadmits, mid, rfl, hm⟩⟩
    · exact .inl ⟨rfl, rfl, .inl rfl⟩
    · dsimp only [settle]
      exact .inl ⟨rfl, rfl, .inr ⟨hnew, rfl⟩⟩
    · exact .inr ⟨hadmits, mid, hm, rfl, rfl, rfl⟩

theorem evictKey_cases (hk : w.batch.Keyed) (now : Time) (key : String) :
    evictKey now w key = w ∨ ∃ entry, w.batch.entry key = some entry ∧ expired now entry = true ∧
      w.batch.Mutates ⟨.delete, entry.record, entry.version⟩ (evictKey now w key).batch ∧
      (evictKey now w key).accepted = w.accepted ++ [⟨.delete, entry.record, entry.version⟩] ∧
      (evictKey now w key).result = w.result := by
  unfold evictKey
  cases he : w.batch.entry key with
  | none => exact .inl rfl
  | some entry =>
    dsimp only
    split_ifs with hx
    · have hkey := hk.key_eq key entry he
      refine .inr ⟨entry, rfl, hx, ?_, rfl, rfl⟩
      have hb : (w.batch.retireEntry key entry).buryKey key ttlExpirySource entry.version =
          w.batch.bury (keyOf entry.record) ttlExpirySource entry.version := by
        rw [hkey, Batch.bury, he]
      rw [hb]
      refine .bury (m := ⟨.delete, entry.record, entry.version⟩) _ rfl ⟨?_, ?_⟩
        (Batch.owns_normal (hk.normal _ _ he) (hk.domain_eq _ _ he) (hk.collection_eq _ _ he))
      · rw [hkey, he]
        rintro _ ⟨⟩
        exact le_rfl
      · simp [hkey, he]
    · exact .inl rfl

/-! ### Whole batches -/

/-- What a property has to survive to hold of every batch whose events meet `C`: a round
that changes no record, an accepted event and an expiry. -/
structure Rules (C : Batch → Event → Prop) (P : Progress → Prop) : Prop where
  idle : ∀ {w w' : Progress}, w.batch.Keyed → P w → w'.accepted = w.accepted →
    w'.result.applied = w.result.applied →
    (w'.batch = w.batch ∨ ∃ source version, w'.batch = w.batch.remember source version) → P w'
  event : ∀ {w w' : Progress} {event : Event} {mid : Batch}, w.batch.Keyed → P w → C w.batch event →
    w.batch.Mutates ⟨acceptedOperation event.operation, event.record,
      w.batch.eventVersion event⟩ mid →
    w'.accepted = w.accepted ++
      [⟨acceptedOperation event.operation, event.record, w.batch.eventVersion event⟩] →
    w'.result.applied = w.result.applied + 1 →
    w'.batch = (mid.remember (trimSpace event.sourceID) (w.batch.eventVersion event)).observe
      (w.batch.eventVersion event) → P w'
  expiry : ∀ {w w' : Progress} {now : Time} {entry : RecordEntry}, w.batch.Keyed → P w →
    w.batch.entry (keyOf entry.record) = some entry → expired now entry = true →
    w.batch.Mutates ⟨.delete, entry.record, entry.version⟩ w'.batch →
    w'.accepted = w.accepted ++ [⟨.delete, entry.record, entry.version⟩] →
      w'.result = w.result → P w'

variable {C : Batch → Event → Prop} {P : Progress → Prop}

/-- What a property has to survive to hold after the event loop. -/
structure EventRules (C : Batch → Event → Prop) (P : Progress → Prop) : Prop where
  idle : ∀ {w w' : Progress}, w.batch.Keyed → P w → w'.accepted = w.accepted →
    w'.result.applied = w.result.applied →
    (w'.batch = w.batch ∨ ∃ source version, w'.batch = w.batch.remember source version) → P w'
  event : ∀ {w w' : Progress} {event : Event} {mid : Batch}, w.batch.Keyed → P w → C w.batch event →
    w.batch.Mutates ⟨acceptedOperation event.operation, event.record,
      w.batch.eventVersion event⟩ mid →
    w'.accepted = w.accepted ++
      [⟨acceptedOperation event.operation, event.record, w.batch.eventVersion event⟩] →
    w'.result.applied = w.result.applied + 1 →
    w'.batch = (mid.remember (trimSpace event.sourceID) (w.batch.eventVersion event)).observe
      (w.batch.eventVersion event) → P w'

theorem Rules.events (hr : Rules C P) : EventRules C P := ⟨hr.idle, hr.event⟩

theorem EventRules.applyOne (hr : EventRules C P) {event : Event} (now : Time) (hk : w.batch.Keyed)
    (hw : P w) (hc : w.batch.Admits now event → C w.batch event) :
    (w.applyOne now event).batch.Keyed ∧ P (w.applyOne now event) := by
  rcases applyOne_cases hk now event with
    ⟨hacc, happ, heq | ⟨-, heq⟩⟩ | ⟨hadmits, mid, hm, hacc, happ, heq⟩
  · refine ⟨?_, hr.idle hk hw hacc happ (.inl heq)⟩
    rw [heq]
    exact hk
  · refine ⟨?_, hr.idle hk hw hacc happ (.inr ⟨_, _, heq⟩)⟩
    rw [heq]
    exact hk.remember _ _
  · refine ⟨?_, hr.event hk hw (hc hadmits) hm hacc happ heq⟩
    rw [heq]
    exact ((hk.mutates hm).remember _ _).observe _

theorem evictExpired_rule {P : Progress → Prop} (env : Env)
    (expiry : ∀ {w w' : Progress} {entry : RecordEntry}, w.batch.Keyed → P w →
      w.batch.entry (keyOf entry.record) = some entry → expired (env.clock 0) entry = true →
      w.batch.Mutates ⟨.delete, entry.record, entry.version⟩ w'.batch →
      w'.accepted = w.accepted ++ [⟨.delete, entry.record, entry.version⟩] →
      w'.result = w.result → P w') (hk : w.batch.Keyed) (hw : P w) :
    (evictExpiredLocked env w).batch.Keyed ∧ P (evictExpiredLocked env w) := by
  have hkey : ∀ (w : Progress) (key : String), w.batch.Keyed → P w →
      (evictKey (env.clock 0) w key).batch.Keyed ∧ P (evictKey (env.clock 0) w key) := by
    intro w key hk hw
    rcases evictKey_cases hk (env.clock 0) key with heq | ⟨entry, he, hx, hm, hacc, hres⟩
    · rw [heq]
      exact ⟨hk, hw⟩
    · exact ⟨hk.mutates hm, expiry hk hw (by rwa [hk.key_eq _ _ he]) hx hm hacc hres⟩
  unfold evictExpiredLocked
  split_ifs with httl
  · exact ⟨hk, hw⟩
  · clear httl
    generalize env.order.visit w.batch.part.registry.records.keys = keys
    induction keys generalizing w with
    | nil => exact ⟨hk, hw⟩
    | cons key rest ih =>
      obtain ⟨hk', hw'⟩ := hkey w key hk hw
      exact ih hk' hw'

theorem rules_true : Rules (fun _ _ => True) fun _ => True :=
  ⟨fun _ _ _ _ _ => trivial, fun _ _ _ _ _ _ _ => trivial, fun _ _ _ _ _ _ _ => trivial⟩

theorem applyOne_keyed (hk : w.batch.Keyed) (now : Time) (event : Event) :
    (w.applyOne now event).batch.Keyed :=
  (rules_true.events.applyOne now hk trivial fun _ => trivial).1

theorem EventRules.loop (hr : EventRules C P) {p : Partition} {events : List Event}
    (hk : (p.startBatch env).batch.Keyed) (start : P (p.startBatch env))
    (hm : Meets C env 1 (p.startBatch env) events) :
    ∃ w : Progress, w.batch.Keyed ∧ P w ∧
      p.applyBatchObserving env events = w.finishApplyLocked := by
  have hloop := applyLoop_rule (P := fun w => w.batch.Keyed ∧ P w)
    (fun now w event h hc => hr.applyOne now h.1 h.2 hc)
    (fun w h => ⟨h.1, hr.idle h.1 h.2 rfl rfl (.inl rfl)⟩) hm ⟨hk, start⟩
  exact ⟨_, hloop.1, hloop.2, rfl⟩

/-- The induction rule for a batch: the sweep of expired keys, then the event loop. -/
theorem Rules.batch (hr : Rules C P) {p : Partition} {env : Env} {events : List Event}
    (hk : Batch.Keyed ⟨p, ∅⟩) (start : P { batch := ⟨p, ∅⟩, result := { epoch := p.epoch } })
    (hm : Meets C env 1 (p.startBatch env) events) :
    ∃ w : Progress, w.batch.Keyed ∧ P w ∧
      p.applyBatchObserving env events = w.finishApplyLocked := by
  obtain ⟨hk', hs⟩ := evictExpired_rule env hr.expiry hk start
  exact hr.events.loop hk' hs hm

end Progress

end Foundation.Hermes
