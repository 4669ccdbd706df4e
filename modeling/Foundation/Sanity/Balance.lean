import Foundation.Sanity.Steps

/-! The counters of a partition. They follow the live entries through every mutation, stay
within the bounds of the spec, and no live key has a tombstone. -/

namespace Foundation.Hermes

open Go

/-- The counters are those of the live entries and within the spec. -/
structure Batch.Balanced (b : Batch) : Prop where
  records_eq : b.part.records = b.part.registry.records.keys.card
  bytes_eq : b.part.bytes = b.part.registry.records.total (·.bytes)
  records_le : b.part.records ≤ b.part.spec.maxRecords
  bytes_le : b.part.bytes ≤ b.part.spec.maxBytes
  apart : ∀ key, b.entry key ≠ none → key ∉ b.part.tombstones

theorem estimateRecordBytes_pos (rec : DomainRecord) : 0 < estimateRecordBytes rec := by
  unfold estimateRecordBytes
  omega

namespace Batch

variable {b : Batch}

theorem Balanced.congr {b' : Batch} (h : b.Balanced) (hs : b'.part.spec = b.part.spec)
    (hr : b'.part.registry.records = b.part.registry.records)
    (ht : b'.part.tombstones = b.part.tombstones) (hn : b'.part.records = b.part.records)
    (hb : b'.part.bytes = b.part.bytes) : b'.Balanced := by
  refine ⟨?_, ?_, ?_, ?_, fun key hne => ?_⟩
  · rw [hn, hr, h.records_eq]
  · rw [hb, hr, h.bytes_eq]
  · rw [hn, hs]
    exact h.records_le
  · rw [hb, hs]
    exact h.bytes_le
  · rw [ht]
    refine h.apart key ?_
    rwa [Batch.entry, hr] at hne

theorem lookup_card (b : Batch) (key : String) :
    ((b.part.registry.records.lookup key).map fun _ => (1 : ℤ)).getD 0 = if b.entry key = none then
      0 else 1 := by
  unfold Batch.entry
  cases b.part.registry.records.lookup key <;> simp

theorem Balanced.store {entry : RecordEntry} (h : b.Balanced) (hf : b.Fits entry) :
    (b.store entry).Balanced := by
  have hcount := h.records_eq
  rw [GoMap.card_keys_eq_total] at hcount
  refine ⟨?_, ?_, ?_, ?_, fun key hne => ?_⟩
  · rw [store_count, store_records, GoMap.card_keys_eq_total, GoMap.total_insert, lookup_card]
    split_ifs <;> omega
  · rw [store_bytes, store_records, GoMap.total_insert, nextBytes, h.bytes_eq]
    rfl
  · rw [store_count, store_spec]
    split_ifs with he
    · have := hf.room he
      omega
    · exact h.records_le
  · rw [store_bytes, store_spec]
    exact hf.space
  · rw [store_entry] at hne
    rw [store_tombstones]
    by_cases hk : key = keyOf entry.record
    · split_ifs with he
      · rw [hk]
        exact Finmap.notMem_erase_self
      · rw [hk]
        exact h.apart _ he
    · rw [if_neg hk] at hne
      split_ifs
      · exact fun hm => h.apart key hne (Finmap.mem_erase.mp hm).2
      · exact h.apart key hne

theorem Balanced.bury (h : b.Balanced) (hk : b.Keyed) (key source : String) (version : ℕ) :
    (b.bury key source version).Balanced := by
  have hcount := h.records_eq
  rw [GoMap.card_keys_eq_total] at hcount
  have hsize : 0 ≤ ((b.entry key).map (·.bytes)).getD 0 := by
    cases he : b.entry key with
    | none => exact le_rfl
    | some old =>
      rw [Option.map_some, Option.getD_some, hk.bytes_eq key old he]
      exact (estimateRecordBytes_pos _).le
  refine ⟨?_, ?_, ?_, ?_, fun k hne => ?_⟩
  · rw [bury_count, bury_records, GoMap.card_keys_eq_total, GoMap.total_erase, lookup_card]
    split_ifs <;> omega
  · rw [bury_bytes, bury_records, GoMap.total_erase, h.bytes_eq]
    rfl
  · have := h.records_le
    rw [bury_count, bury_spec]
    split_ifs <;> omega
  · have := h.bytes_le
    rw [bury_bytes, bury_spec]
    omega
  · rw [bury_entry] at hne
    split_ifs at hne with heq
    · exact absurd rfl hne
    rw [bury_tombstones, Finmap.mem_iff]
    rintro ⟨tomb, hl⟩
    rcases Partition.rememberTombstoneLocked_lookup hl with ⟨hk', -⟩ | hold
    · exact heq hk'
    · exact h.apart k hne (Finmap.mem_iff.mpr ⟨tomb, hold⟩)

theorem Balanced.mutates {b' : Batch} {m : AppliedMutation} (h : b.Balanced) (hk : b.Keyed)
    (hm : b.Mutates m b') :
    b'.Balanced := by
  cases hm with
  | store entry op patches key version value fits => exact h.store fits
  | bury source op deletable owned => exact h.bury hk _ _ _

theorem Balanced.remember (h : b.Balanced) (source : String) (version : ℕ) :
    (b.remember source version).Balanced :=
  h.congr (remember_spec _ _ _) (by rw [Batch.remember, Partition.rememberAppliedLocked_registry])
    (Partition.rememberAppliedLocked_tombstones _ _ _)
      (Partition.rememberAppliedLocked_records _ _ _)
    (Partition.rememberAppliedLocked_bytes _ _ _)

theorem Balanced.observe (h : b.Balanced) (version : ℕ) : (b.observe version).Balanced :=
  h.congr rfl rfl rfl rfl rfl

end Batch

namespace Progress

theorem balanced_rules : Rules (fun _ _ => True) fun w => w.batch.Balanced := by
  constructor
  · rintro w w' - hw - - (hb | ⟨source, version, hb⟩)
    · rwa [hb]
    · rw [hb]
      exact hw.remember source version
  · intro w w' event mid hk hw _ hm _ _ hb
    rw [hb]
    exact ((hw.mutates hk hm).remember _ _).observe _
  · intro w w' now entry hk hw _ _ hm _ _
    exact hw.mutates hk hm

theorem finish_balanced {w : Progress} (h : w.batch.Balanced) :
    w.finishApplyLocked.part.idle.Balanced := by
  obtain ⟨indexes, epoch, heq⟩ := finish_eq (w := w)
  rw [heq]
  exact h.congr rfl rfl rfl rfl rfl

end Progress

namespace Partition

theorem newPartition_balanced (spec : NormalSpec) : (newPartition spec).idle.Balanced := by
  refine ⟨rfl, (GoMap.total_empty _).symm, spec.maxRecords_pos.le, spec.maxBytes_pos.le,
    fun key hne => ?_⟩
  exact absurd rfl hne

theorem bulkSwap_balanced {p : Partition} {env : Env} {records : List DomainRecord}
    {load : BulkState} (h : bulkStream env p.spec records = .ok load) :
    (p.bulkSwap load).idle.Balanced := by
  obtain ⟨hi, hb⟩ := bulkStream_rule (Q := fun s => s.batch.Balanced) (newPartition_balanced p.spec)
    (fun s entry _ hq _ hf => hq.store hf) h
  refine hb.congr ?_ ?_ rfl rfl rfl
  · exact hi.spec_eq.symm
  · unfold idle bulkSwap publishBulk
    split_ifs <;> rfl

theorem Reach.balanced {C : Partition → Step → Prop} {spec : NormalSpec} {p : Partition}
    (h : Reach C spec p) :
    p.idle.Balanced := by
  refine Reach.rule (P := fun p => p.idle.Balanced) (newPartition_balanced spec)
    (fun p env events hk _ hp hm => ?_)
    (fun p env records load _ _ _ _ hload => bulkSwap_balanced hload)
    (h.mono fun p s _ => Step.Any.meets (p := p) (s := s) trivial)
  obtain ⟨w, -, hw, hout⟩ := Progress.balanced_rules.batch hk hp hm
  rw [hout]
  exact Progress.finish_balanced hw

end Partition

/-! ### Events that change nothing -/

namespace Batch

/-- Same live cells, indexes, counters and tombstones; the bookkeeping of sources may differ. -/
structure SameContents (b b' : Batch) : Prop where
  registry : b'.part.registry = b.part.registry
  publisher : b'.publisher = b.publisher
  records : b'.part.records = b.part.records
  bytes : b'.part.bytes = b.part.bytes
  tombstones : b'.part.tombstones = b.part.tombstones
  tombOrder : b'.part.tombOrder = b.part.tombOrder

theorem SameContents.refl (b : Batch) : b.SameContents b := ⟨rfl, rfl, rfl, rfl, rfl, rfl⟩

theorem sameContents_remember (b : Batch) (source : String) (version : ℕ) :
    b.SameContents (b.remember source version) := by
  obtain ⟨_, _, _, h⟩ := b.part.rememberAppliedLocked_eq source version
  rw [remember, h]
  exact ⟨rfl, rfl, rfl, rfl, rfl, rfl⟩

theorem applyMutationLocked_ignored {b b' : Batch} {now : Time} {key source : String}
    {rec : DomainRecord} {operation : Operation} {version : ℕ}
    (h : b.applyMutationLocked now key rec operation source version = .ok (.ignored, b')) :
    b' = b := by
  have hupsert : b.upsertLocked now key rec source version = .ok (.ignored, b') → b' = b :=
    fun h => by
    unfold upsertLocked at h
    split_ifs at h <;> cases h <;> rfl
  cases operation with
  | unset => exact hupsert h
  | upsert => exact hupsert h
  | patch =>
    rw [applyMutationLocked, patchLocked] at h
    dsimp only at h
    split_ifs at h
    · cases h
      rfl
    · split at h
      · cases h
        rfl
      · split_ifs at h <;> cases h
        rfl
  | delete =>
    rw [applyMutationLocked, deleteLocked] at h
    split at h <;> split_ifs at h <;> cases h <;> rfl
  | other text => cases h

end Batch

namespace Progress

/-- An event that is rejected or reported as ignored. -/
def Refused (w : Progress) (now : Time) (event : Event) : Prop :=
  w.batch.applyEventLocked now event = .error .invalidEvent ∨
    w.batch.applyEventLocked now event = .error .projectionLimit ∨
    ∃ version b, w.batch.applyEventLocked now event = .ok (.ignored, version, b)

theorem applyOne_refused {w : Progress} {now : Time} {event : Event} (h : w.Refused now event) :
    w.batch.SameContents (w.applyOne now event).batch := by
  unfold applyOne
  rcases h with he | he | ⟨version, b, he⟩
  · rw [he]
    exact .refl _
  · rw [he]
    exact .refl _
  · rw [he]
    unfold Batch.applyEventLocked at he
    dsimp only at he
    split_ifs at he
    · cases he
    obtain ⟨rec, -, he⟩ := except_bind_eq_ok he
    obtain ⟨_, -, he⟩ := except_bind_eq_ok he
    obtain ⟨⟨st, mid⟩, hmut, he⟩ := except_bind_eq_ok he
    cases he
    rw [Batch.applyMutationLocked_ignored hmut]
    exact Batch.sameContents_remember _ _ _

end Progress

end Foundation.Hermes
