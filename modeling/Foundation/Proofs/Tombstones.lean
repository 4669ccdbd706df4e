import Foundation.Sanity.Tombstones

/-! Deletes over whole runs of batches: a delete is not undone by an older write as long as no
listed key is tombstoned again, and the tombstones are exactly the most recent ones when, in
addition, no listed key comes back to life. -/

namespace Foundation.Hermes

open Go LastEntries

/-! ### The most recently deleted keys -/

def touch (keys : List String) (m : AppliedMutation) : List String :=
  if m.operation = .delete then keys.filter (· ≠ keyOf m.record) ++ [keyOf m.record] else keys

/-- The keys deleted so far, in the order of their last deletes. -/
def recentlyDeleted (log : List AppliedMutation) : List String := log.foldl touch []

theorem recentlyDeleted_append (log : List AppliedMutation) (m : AppliedMutation) :
    recentlyDeleted (log ++ [m]) = touch (recentlyDeleted log) m := by
  rw [recentlyDeleted, List.foldl_append]
  rfl

theorem touch_nodup {keys : List String} (h : keys.Nodup) (m : AppliedMutation) :
    (touch keys m).Nodup := by
  unfold touch
  split_ifs
  · rw [List.nodup_append]
    refine ⟨h.filter _, List.nodup_singleton _, fun a ha c hc hac => ?_⟩
    rw [List.mem_singleton] at hc
    exact of_decide_eq_true (List.mem_filter.mp ha).2 (hac.trans hc)
  · exact h

theorem recentlyDeleted_nodup (log : List AppliedMutation) : (recentlyDeleted log).Nodup := by
  induction log using List.reverseRecOn with
  | nil => exact List.nodup_nil
  | append_singleton log m ih =>
    rw [recentlyDeleted_append]
    exact touch_nodup ih m

namespace Batch

variable {b b' : Batch} {m : AppliedMutation} {log : List AppliedMutation}

/-- The keys of `recentlyDeleted` that are not live again. -/
def recentDead (b : Batch) (log : List AppliedMutation) : List String :=
  (recentlyDeleted log).filter fun key => (b.entry key).isNone

/-- The order list holds the most recent of the dead keys. -/
def Recent (b : Batch) (log : List AppliedMutation) : Prop :=
  b.part.tombOrder = (b.recentDead log).rtake b.tombBound

def Fresh (b : Batch) (m : AppliedMutation) : Prop :=
  m.operation = .upsert → b.entry (keyOf m.record) = none → keyOf m.record ∉ b.part.tombOrder

theorem recentDead_store {entry : RecordEntry} (hop : m.operation ≠ .delete) :
    (b.store entry).recentDead (log ++ [m]) =
      (b.recentDead log).filter (· ≠ keyOf entry.record) := by
  rw [recentDead, recentlyDeleted_append, touch, if_neg hop, recentDead, List.filter_filter]
  refine List.filter_congr fun key _ => ?_
  rw [store_entry]
  by_cases hk : key = keyOf entry.record
  · simp [hk]
  · simp [hk]

theorem recentDead_bury {source : String} (hop : m.operation = .delete) :
    (b.bury (keyOf m.record) source m.version).recentDead (log ++ [m]) =
      (b.recentDead log).filter (· ≠ keyOf m.record) ++ [keyOf m.record] := by
  rw [recentDead, recentlyDeleted_append, touch, if_pos hop, List.filter_append, recentDead,
    List.filter_filter,
    List.filter_filter]
  congr 1
  · refine List.filter_congr fun key _ => ?_
    rw [bury_entry]
    by_cases hk : key = keyOf m.record
    · simp [hk]
    · simp [hk]
  · simp [bury_entry]

theorem Recent.mutates (h : b.Recent log) (hl : b.Listed) (hm : b.Mutates m b') (honce : b.Once m)
    (hfresh : b.Fresh m) : b'.Recent (log ++ [m]) := by
  unfold Recent
  rw [hm.tombBound_eq]
  cases hm with
  | store entry op patches key version value fits =>
    have hop : m.operation ≠ .delete := by rcases op with op | op <;> rw [op] <;> decide
    have hnot : keyOf entry.record ∉ (b.recentDead log).rtake b.tombBound := by
      rw [← h]
      intro hmem
      by_cases he : b.entry (keyOf entry.record) = none
      · rcases op with op | op
        · rw [← key] at he hmem
          exact hfresh op he hmem
        · obtain ⟨old, -, -, hold, -⟩ := patches op
          rw [he] at hold
          cases hold
      · rw [h] at hmem
        have hdead := (List.mem_filter.mp (List.mem_of_mem_drop hmem)).2
        exact he (Option.isNone_iff_eq_none.mp hdead)
    rw [store_tombOrder, recentDead_store hop, rtake_filter_ne hnot, h]
  | bury source op deletable =>
    rw [bury_tombOrder_eq, recentDead_bury op]
    rcases hl.tombOrderWith_cases (honce op) with ⟨-, ⟨older, holder⟩, heq⟩ | ⟨hnew, heq⟩
    · -- The key is the last of the recent ones already, so moving it there changes nothing.
      have hsplit := take_append_rtake (b.recentDead log) b.tombBound
      rw [← h, holder, ← List.append_assoc] at hsplit
      have hnodup : (b.recentDead log).Nodup := (recentlyDeleted_nodup log).filter _
      rw [← hsplit, List.nodup_append] at hnodup
      have hsame : (b.recentDead log).filter (· ≠ keyOf m.record) ++ [keyOf m.record] =
          b.recentDead log := by
        rw [← hsplit, List.filter_append, List.filter_eq_self.mpr fun x hx => decide_eq_true
          (hnodup.2.2 x hx _ List.mem_cons_self)]
        simp
      rw [hsame, heq, ← h, rtake_of_length_le hl.bounded]
    · rw [h] at hnew
      rw [heq, h, ← rtake_rtake_append ((b.recentDead log).filter _), rtake_filter_ne hnew]

/-- What is known of the tombstones after the mutations of `log`. -/
structure Kept (fresh : Prop) (b : Batch) (log : List AppliedMutation) : Prop where
  listed : b.Listed
  holds : b.Holds log
  unresurrected : NotResurrected b.tombBound log
  recent : fresh → b.Recent log

variable {fresh : Prop}

theorem Kept.congr (h : b.Kept fresh log) (hs : b'.part.spec = b.part.spec)
    (ho : b'.part.tombOrder = b.part.tombOrder) (ht : b'.part.tombstones = b.part.tombstones)
    (he : ∀ key, b'.entry key = b.entry key) : b'.Kept fresh log := by
  have hbound : b'.tombBound = b.tombBound := by rw [tombBound, hs, tombBound]
  refine ⟨h.listed.congr hs ho ht he, fun pre del since hlog hstand => ?_, hbound ▸ h.unresurrected,
    fun hf => ?_⟩
  · rw [hbound] at hstand
    rw [ht, ho]
    exact h.holds pre del since hlog hstand
  · have hdead : b'.recentDead log = b.recentDead log := by
      unfold recentDead
      simp only [he]
    rw [Recent, ho, hdead, hbound]
    exact h.recent hf

theorem Kept.mutates (h : b.Kept fresh log) (hm : b.Mutates m b') (honce : b.Once m)
    (hfresh : fresh → b.Fresh m) :
    b'.Kept fresh (log ++ [m]) :=
  ⟨h.listed.mutates hm honce, h.holds.mutates h.listed hm honce,
    NotResurrected.mutates h.unresurrected h.holds h.listed hm,
    fun hf => (h.recent hf).mutates h.listed hm honce (hfresh hf)⟩

theorem Kept.remember (h : b.Kept fresh log) (source : String) (version : ℕ) :
    (b.remember source version).Kept fresh log :=
  h.congr (remember_spec _ _ _) (Partition.rememberAppliedLocked_tombOrder _ _ _)
    (Partition.rememberAppliedLocked_tombstones _ _ _) fun _ => remember_entry _ _ _ _

theorem Kept.observe (h : b.Kept fresh log) (version : ℕ) : (b.observe version).Kept fresh log :=
  h.congr rfl rfl rfl fun _ => rfl

end Batch

/-! ### Whole runs -/

/-- A delete tombstones no listed key again, unless it is the last one and dead; where `fresh`
is asked for, an upsert revives no listed key. -/
structure Tidy (fresh : Prop) (b : Batch) (event : Event) : Prop where
  once : event.operation = .delete → b.Buriable (keyOf event.record)
  fresh : fresh → event.operation = .unset ∨ event.operation = .upsert →
    b.entry (keyOf event.record) = none → keyOf event.record ∉ b.part.tombOrder

/-- No listed key is due for expiry when a batch starts. -/
def Partition.SweepsOnce (p : Partition) (env : Env) : Prop :=
  ∀ key e, p.idle.entry key = some e → Progress.expired (env.clock 0) e = true → key ∉ p.tombOrder

/-- A partition after batches whose applied events meet `C` and whose sweeps meet `S`, with all
the mutations accepted on the way. An `ApplyRecords` call is the batch of its upserts. -/
inductive Logged (C : Batch → Event → Prop) (S : Partition → Env → Prop) (spec : NormalSpec) :
    Partition → List AppliedMutation → Prop
  | start : Logged C S spec (newPartition spec) []
  | batch {p : Partition} {log : List AppliedMutation} (env : Env) (events : List Event) :
    Logged C S spec p log →
      S p env → Progress.Meets C env 1 (p.startBatch env) events →
      Logged C S spec (p.applyBatchObserving env events).part
        (log ++ (p.applyBatchObserving env events).accepted)

variable {fresh : Prop} {log : List AppliedMutation}

theorem kept_start (spec : NormalSpec) : (newPartition spec).idle.Kept fresh [] := by
  refine ⟨⟨List.nodup_nil, Nat.zero_le _, fun key => ?_⟩, fun pre del since hlog => ?_,
    fun pre del since m post hlog =>
    ?_, fun _ => List.rtake_nil _ |>.symm⟩
  · exact ⟨fun hm => absurd hm Finmap.notMem_empty, fun hm => absurd hm.1 List.not_mem_nil⟩
  · simp at hlog
  · simp at hlog

/-- The sweep keeps the tombstones in order when no listed key is due. -/
theorem kept_sweep {p : Partition} {env : Env} (hk : p.idle.Keyed) (h : p.idle.Kept fresh log)
    (hsweep : p.SweepsOnce env) : (p.startBatch env).batch.Keyed ∧
      (p.startBatch env).batch.Kept fresh (log ++ (p.startBatch env).accepted) := by
  have hrule := Progress.evictExpired_rule (P := fun w => w.batch.Kept fresh (log ++ w.accepted) ∧
      ∀ key e, w.batch.entry key = some e → Progress.expired (env.clock 0) e = true →
        key ∉ w.batch.part.tombOrder)
    env (w := { batch := ⟨p, ∅⟩, result := { epoch := p.epoch } })
    (fun {w w' entry} hk hw he hexp hm hacc _ => by
      have honce : w.batch.Once ⟨.delete, entry.record, entry.version⟩ :=
        fun _ hmem => absurd hmem (hw.2 _ entry he hexp)
      refine ⟨?_, fun key e hkey hx hmem => ?_⟩
      · rw [hacc, ← List.append_assoc]
        exact hw.1.mutates hm honce fun _ hop => by cases hop
      · generalize w'.batch = b' at hm hkey hmem
        cases hm with
        | store entry op => rcases op with op | op <;> cases op
        | bury source op =>
          rw [Batch.bury_entry] at hkey
          split_ifs at hkey with hne
          rw [Batch.bury_tombOrder_eq] at hmem
          rcases (hw.1.listed.mem_tombOrderWith (honce rfl) key).mp
            (List.mem_of_mem_drop hmem) with hin | heq
          · exact hw.2 key e hkey hx hin
          · exact hne heq)
    hk ⟨by rw [List.append_nil]; exact h, hsweep⟩
  exact ⟨hrule.1, hrule.2.1⟩

theorem kept_events :
    Progress.EventRules (Tidy fresh) fun w => w.batch.Kept fresh (log ++ w.accepted) := by
  constructor
  · rintro w w' - hw hacc - (hb | ⟨source, version, hb⟩)
    · rw [hacc, hb]
      exact hw
    · rw [hacc, hb]
      exact hw.remember source version
  · intro w w' event mid _ hw htidy hm hacc _ hb
    have honce : w.batch.Once ⟨Progress.acceptedOperation event.operation, event.record,
        w.batch.eventVersion event⟩ := by
      intro hop
      have hdel : event.operation = .delete := by
        dsimp only [Progress.acceptedOperation] at hop
        split_ifs at hop
        exact hop
      exact htidy.once hdel
    have hfresh : fresh → w.batch.Fresh
        ⟨Progress.acceptedOperation event.operation, event.record, w.batch.eventVersion event⟩ := by
      intro hf hop hnone
      have hup : event.operation = .unset ∨ event.operation = .upsert := by
        dsimp only [Progress.acceptedOperation] at hop
        split_ifs at hop with hunset
        · exact .inl hunset
        · exact .inr hop
      exact htidy.fresh hf hup hnone
    rw [hacc, hb, ← List.append_assoc]
    exact ((hw.mutates hm honce hfresh).remember _ _).observe _

theorem Logged.kept {spec : NormalSpec} {p : Partition}
    (h : Logged (Tidy fresh) Partition.SweepsOnce spec p log) :
    p.idle.Keyed ∧ p.spec = spec ∧ p.idle.Kept fresh log := by
  induction h with
  | start => exact ⟨Partition.newPartition_keyed spec, rfl, kept_start spec⟩
  | @batch p log env events _ hs hm ih =>
    obtain ⟨hk, hspec, hkept⟩ := ih
    obtain ⟨hk', hstart⟩ := kept_sweep hk hkept hs
    obtain ⟨w, hkw, hw, hout⟩ := (@kept_events fresh log).loop hk' hstart hm
    obtain ⟨hkb, hspecb⟩ := Partition.applyBatchObserving_keyed hk env events
    refine ⟨hkb, hspecb.trans hspec, ?_⟩
    rw [hout, Progress.finish_accepted]
    obtain ⟨_, _, heq⟩ := w.finish_eq
    refine hw.congr (Progress.finish_spec w) ?_ ?_ (Progress.finish_entry w)
    · rw [Partition.idle, heq]
    · rw [Partition.idle, heq]

/-- Over runs that never tombstone a listed key again, no standing delete is undone by an older
write, and the tombstones are those of the listed keys that are not live again. When no listed
key is revived either, they are those of the most recently deleted dead keys, listed in order. -/
theorem deletes_stand {spec : NormalSpec} {p : Partition} {log : List AppliedMutation}
    (h : Logged (Tidy fresh) Partition.SweepsOnce spec p log) :
    NotResurrected spec.maxTombstones.toNat log ∧ p.tombOrder.Nodup ∧
      (∀ key, key ∈ p.tombstones ↔ key ∈ p.tombOrder ∧ p.idle.entry key = none) ∧
      (fresh → p.tombOrder.toFinset = p.tombstones.keys ∧
        p.tombOrder = ((recentlyDeleted log).filter fun key => (p.idle.entry key).isNone).rtake
          spec.maxTombstones.toNat) := by
  obtain ⟨-, hspec, hkept⟩ := h.kept
  have hbound : p.idle.tombBound = spec.maxTombstones.toNat := by rw [← hspec]; rfl
  refine ⟨hbound ▸ hkept.unresurrected, hkept.listed.nodup, hkept.listed.mem_iff, fun hf => ?_⟩
  have hrecent := hkept.recent hf
  rw [Batch.Recent, hbound] at hrecent
  refine ⟨?_, hrecent⟩
  ext key
  rw [List.mem_toFinset, Finmap.mem_keys]
  refine Iff.trans ⟨fun hmem => ⟨hmem, ?_⟩, fun hmem => hmem.1⟩ (hkept.listed.mem_iff key).symm
  have hdead : p.tombOrder = (p.idle.recentDead log).rtake spec.maxTombstones.toNat := hrecent
  rw [hdead] at hmem
  exact Option.isNone_iff_eq_none.mp (List.mem_filter.mp (List.mem_of_mem_drop hmem)).2

/-! ### On concrete input -/

def twoTombstones : NormalSpec :=
  { ordersSpec with maxTombstones := 2, maxTombstones_pos := by decide }

def deleteOrder (id : String) (version : ℕ) : Event := ⟨.delete, "", version, order id "open"⟩

def upsertOrder (id : String) (version : ℕ) : Event := ⟨.upsert, "", version, order id "open"⟩

/-- A delete and an older upsert of the same key. -/
theorem deletes_stand_against_older_upsert :
    ∃ p log, Logged (Tidy True) Partition.SweepsOnce twoTombstones p log ∧
    log = [⟨.delete, order "a" "open", 5⟩] ∧ p.tombOrder = recentlyDeleted log := by
  have hsweep : (newPartition twoTombstones).SweepsOnce (.steady 1) := fun key e he => by cases he
  have hrun := Logged.batch (.steady 1) [deleteOrder "a" 5, upsertOrder "a" 3]
    (.start : Logged (Tidy True) Partition.SweepsOnce twoTombstones _ _) hsweep
    (fun _ => ⟨fun _ => ⟨fun _ hmem => absurd hmem List.not_mem_nil,
        fun _ hop => by rcases hop with hop | hop <;> cases hop⟩,
      fun _ => ⟨fun hadmits => by
        obtain ⟨rec, hrec, -, -, hblock, -⟩ := hadmits.passes
        rw [(keyOf_eq_iff _ _).mpr (normalizeEventRecord_ok hrec).2] at hblock
        exact absurd hblock (by decide +kernel), trivial⟩⟩)
  refine ⟨_, _, hrun, by decide +kernel, ?_⟩
  rw [((deletes_stand hrun).2.2.2 trivial).2]
  decide +kernel

/-- A key deleted, revived and deleted again is listed twice. The next delete drops the first
listing and with it the tombstone, and an older upsert goes through. -/
theorem older_upsert_resurrects :
    ∃ p log, Logged (fun _ _ => True) (fun _ _ => True) twoTombstones p log ∧
    ¬ NotResurrected twoTombstones.maxTombstones.toNat log := by
  refine ⟨_, _, Logged.batch (.steady 1) [deleteOrder "a" 5, upsertOrder "a" 6, deleteOrder "a" 7,
    deleteOrder "b" 8,
    upsertOrder "a" 3] .start trivial (Progress.meets_true _ _ _ _), fun h => ?_⟩
  have hlog : ((newPartition twoTombstones).applyBatchObserving (.steady 1) [deleteOrder "a" 5,
      upsertOrder "a" 6,
      deleteOrder "a" 7, deleteOrder "b" 8, upsertOrder "a" 3]).accepted =
      [⟨.delete, order "a" "open", 5⟩, ⟨.upsert, order "a" "open", 6⟩] ++
        ⟨.delete, order "a" "open", 7⟩ ::
        ([⟨.delete, order "b" "open", 8⟩] ++ ⟨.upsert, order "a" "open", 3⟩ :: []) := by
    decide +kernel
  have hle := h _ _ _ _ _ hlog ⟨rfl, by decide +kernel, by decide +kernel⟩ (.inl rfl) rfl
  exact absurd hle (by decide)

end Foundation.Hermes
