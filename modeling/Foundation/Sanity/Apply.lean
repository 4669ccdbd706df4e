import Foundation.Lib.Results
import Foundation.Sanity.Keys

/-! What applying events can do to a partition. Every accepted mutation is a store or a
delete of one key; everything else leaves records, tombstones and indexes alone. -/

namespace Foundation.Hermes

open Go

/-! ### Normalized records -/

/-- A record with the identity `normalizeIdentity` gives it. -/
structure NormalRecord (rec : DomainRecord) : Prop where
  domain_trim : trimSpace rec.domain = rec.domain
  collection_trim : trimSpace rec.collection = rec.collection
  organizationID_trim : trimSpace rec.organizationID = rec.organizationID
  recordID_trim : trimSpace rec.recordID = rec.recordID
  organizationID_ne : rec.organizationID ≠ ""
  recordID_ne : rec.recordID ≠ ""

theorem normalizeIdentity_ok {rec out : DomainRecord} (h : normalizeIdentity rec = .ok out) :
    NormalRecord out ∧ identityOf out = identityOf rec := by
  unfold normalizeIdentity at h
  dsimp only at h
  split_ifs at h with hb
  simp only [not_or] at hb
  obtain rfl := Except.ok.inj h
  exact ⟨⟨trimSpace_trimSpace _, trimSpace_trimSpace _, trimSpace_trimSpace _,
    trimSpace_trimSpace _,
    hb.2.2.1, hb.2.2.2⟩, by simp [identityOf, recordIdentity]⟩

variable {rec : DomainRecord} {e : HermesError} {now : Time} {event : Event} {state : ApplyState}
  {b' : Batch} {patch : DomainRecord}

theorem normalizeIdentity_error (h : normalizeIdentity rec = .error e) :
    e = .invalidEvent := by
  unfold normalizeIdentity at h
  dsimp only at h
  split_ifs at h
  exact (Except.error.inj h).symm

theorem NormalRecord.of_identity {a b : DomainRecord} (h : NormalRecord a)
    (hd : b.domain = a.domain) (hc : b.collection = a.collection)
    (ho : b.organizationID = a.organizationID) (hi : b.recordID = a.recordID) : NormalRecord b :=
  ⟨by rw [hd, h.domain_trim], by rw [hc, h.collection_trim], by rw [ho, h.organizationID_trim],
    by rw [hi, h.recordID_trim], by rw [ho]; exact h.organizationID_ne,
    by rw [hi]; exact h.recordID_ne⟩

theorem normalizeRecord_ok {rec out : DomainRecord} (h : normalizeRecord now rec = .ok out) :
    NormalRecord out ∧ identityOf out = identityOf rec := by
  obtain ⟨mid, hmid, hout⟩ := except_bind_eq_ok h
  obtain rfl := Except.ok.inj hout
  obtain ⟨hn, hid⟩ := normalizeIdentity_ok hmid
  exact ⟨hn.of_identity rfl rfl rfl rfl, hid⟩

theorem normalizeEventRecord_ok (h : Batch.normalizeEventRecord now event = .ok rec) :
    NormalRecord rec ∧ identityOf rec = identityOf event.record := by
  unfold Batch.normalizeEventRecord at h
  split_ifs at h
  · obtain ⟨mid, hmid, hrec⟩ := except_bind_eq_ok h
    obtain rfl := Except.ok.inj hrec
    obtain ⟨hn, hid⟩ := normalizeIdentity_ok hmid
    exact ⟨hn.of_identity rfl rfl rfl rfl, hid⟩
  · exact normalizeRecord_ok h

theorem normalizeEventRecord_error (h : Batch.normalizeEventRecord now event = .error e) :
    e = .invalidEvent := by
  unfold Batch.normalizeEventRecord normalizePatchRecord normalizeRecord at h
  split_ifs at h
  all_goals
    rcases except_bind_eq_error h with hmid | ⟨_, _, hrec⟩
    · exact normalizeIdentity_error hmid
    · cases hrec

namespace PartitionRegistry

variable (r : PartitionRegistry) (updatedAt : Time) (version : ℕ)

@[simp] theorem trackColumnarOrder_records :
    (r.trackColumnarOrder updatedAt version).records = r.records := by
  unfold trackColumnarOrder
  split_ifs <;> rfl

@[simp] theorem trackColumnarOrder_indexes :
    (r.trackColumnarOrder updatedAt version).indexes = r.indexes := by
  unfold trackColumnarOrder
  split_ifs <;> rfl

@[simp] theorem trackColumnarOrder_bitmaps :
    (r.trackColumnarOrder updatedAt version).bitmaps = r.bitmaps := by
  unfold trackColumnarOrder
  split_ifs <;> rfl

end PartitionRegistry

namespace Partition

variable (p : Partition) (key source : String) (version : ℕ)

/-- The order list after a tombstone of `key`, before the bound is enforced. -/
def tombOrderWith (p : Partition) (key : String) : List String :=
  if key ∈ p.tombstones then p.tombOrder else p.tombOrder ++ [key]

theorem rememberTombstoneLocked_eq : p.rememberTombstoneLocked key source version = { p with
    tombOrder := (evictTombstones p.spec.maxTombstones (p.tombOrderWith key)
      (p.tombstones.insert key ⟨version, source⟩)).1
    tombstones := (evictTombstones p.spec.maxTombstones (p.tombOrderWith key)
      (p.tombstones.insert key ⟨version, source⟩)).2 } := by
  rw [rememberTombstoneLocked, if_neg (not_le.mpr p.spec.maxTombstones_pos)]
  rfl

theorem expiry_of_no_ttl (now : Time) (h : p.spec.ttl ≤ 0) : p.expiry now = 0 :=
  if_neg (not_lt.mpr h)

/-- Remembering a source touches only the bookkeeping of applied sources. -/
theorem rememberAppliedLocked_eq :
    ∃ applyOrder applied watermarks, p.rememberAppliedLocked source version =
    { p with applyOrder := applyOrder, applied := applied, watermarks := watermarks } := by
  unfold rememberAppliedLocked
  split_ifs
  · exact ⟨p.applyOrder, p.applied, p.watermarks, rfl⟩
  · exact ⟨_, _, _, rfl⟩

@[simp] theorem rememberAppliedLocked_spec :
    (p.rememberAppliedLocked source version).spec = p.spec := by
  obtain ⟨_, _, _, h⟩ := p.rememberAppliedLocked_eq source version
  rw [h]

@[simp] theorem rememberAppliedLocked_registry :
    (p.rememberAppliedLocked source version).registry = p.registry := by
  obtain ⟨_, _, _, h⟩ := p.rememberAppliedLocked_eq source version
  rw [h]

@[simp] theorem rememberAppliedLocked_tombstones :
    (p.rememberAppliedLocked source version).tombstones = p.tombstones := by
  obtain ⟨_, _, _, h⟩ := p.rememberAppliedLocked_eq source version
  rw [h]

@[simp] theorem rememberAppliedLocked_tombOrder :
    (p.rememberAppliedLocked source version).tombOrder = p.tombOrder := by
  obtain ⟨_, _, _, h⟩ := p.rememberAppliedLocked_eq source version
  rw [h]

@[simp] theorem rememberAppliedLocked_bytes :
    (p.rememberAppliedLocked source version).bytes = p.bytes := by
  obtain ⟨_, _, _, h⟩ := p.rememberAppliedLocked_eq source version
  rw [h]

@[simp] theorem rememberAppliedLocked_records :
    (p.rememberAppliedLocked source version).records = p.records := by
  obtain ⟨_, _, _, h⟩ := p.rememberAppliedLocked_eq source version
  rw [h]

@[simp] theorem rememberAppliedLocked_epoch :
    (p.rememberAppliedLocked source version).epoch = p.epoch := by
  obtain ⟨_, _, _, h⟩ := p.rememberAppliedLocked_eq source version
  rw [h]

end Partition

namespace Batch

/-! ### The two mutations -/

/-- An accepted upsert or patch: `entry` takes its key. -/
def store (b : Batch) (entry : RecordEntry) : Batch :=
  b.storeEntry (keyOf entry.record) (b.entry (keyOf entry.record)) entry
    (b.nextBytes (b.entry (keyOf entry.record)) entry.bytes)

/-- An accepted delete or an expiry: the key's entry, if any, leaves and a tombstone stays. -/
def bury (b : Batch) (key source : String) (version : ℕ) : Batch :=
  match b.entry key with
  | some old => (b.retireEntry key old).buryKey key source version
  | none => b.buryKey key source version

/-- What an accepted upsert or patch has passed. -/
structure Fits (b : Batch) (entry : RecordEntry) : Prop where
  normal : NormalRecord entry.record
  domain_eq : entry.record.domain = b.part.spec.domain
  collection_eq : entry.record.collection = b.part.spec.collection
  unblocked : b.part.blockedByNewerTombstoneLocked (keyOf entry.record) entry.version = false
  newest : ∀ old, b.entry (keyOf entry.record) = some old → old.version ≤ entry.version
  room : b.entry (keyOf entry.record) = none → b.part.records < b.part.spec.maxRecords
  space : b.nextBytes (b.entry (keyOf entry.record)) entry.bytes ≤ b.part.spec.maxBytes
  bytes_eq : entry.bytes = estimateRecordBytes entry.record
  lasting : b.part.spec.ttl ≤ 0 → entry.expiresAt = 0

/-- What an accepted delete has passed. -/
structure Deletable (b : Batch) (key : String) (version : ℕ) : Prop where
  newest : ∀ old, b.entry key = some old → old.version ≤ version
  unblocked : b.entry key = none → b.part.blockedByNewerTombstoneLocked key version = false

/-- The checks a valid event of the projection has to pass to be applied. -/
def Passes (b : Batch) (rec : DomainRecord) (operation : Operation) (version : ℕ) : Prop :=
  match operation with
  | .unset | .upsert => b.part.blockedByNewerTombstoneLocked (keyOf rec) version = false ∧
      (∀ old, b.entry (keyOf rec) = some old → old.version ≤ version) ∧
      (b.entry (keyOf rec) = none → b.part.records < b.part.spec.maxRecords) ∧
      b.nextBytes (b.entry (keyOf rec)) (estimateRecordBytes rec) ≤ b.part.spec.maxBytes
  | .patch => b.part.blockedByNewerTombstoneLocked (keyOf rec) version = false ∧
      ∃ old, b.entry (keyOf rec) = some old ∧ old.version ≤ version ∧
        b.nextBytes (some old) (estimateRecordBytes (patched old.record rec)) ≤ b.part.spec.maxBytes
  | .delete => b.Deletable (keyOf rec) version
  | .other _ => False

/-- Every live entry is a normalized record of the projection, under its own key and with
its own size; without a TTL it does not expire. -/
structure Keyed (b : Batch) : Prop where
  key_eq : ∀ key e, b.entry key = some e → keyOf e.record = key
  normal : ∀ key e, b.entry key = some e → NormalRecord e.record
  domain_eq : ∀ key e, b.entry key = some e → e.record.domain = b.part.spec.domain
  collection_eq : ∀ key e, b.entry key = some e → e.record.collection = b.part.spec.collection
  bytes_eq : ∀ key e, b.entry key = some e → e.bytes = estimateRecordBytes e.record
  lasting : ∀ key e, b.entry key = some e → b.part.spec.ttl ≤ 0 → e.expiresAt = 0

/-- A record, as given, is one of the projection's domain and collection. -/
def Owns (b : Batch) (rec : DomainRecord) : Prop :=
  (identityOf rec).domain = b.part.spec.domain ∧
    (identityOf rec).collection = b.part.spec.collection

theorem owns_normal {b : Batch} (h : NormalRecord rec) (hd : rec.domain = b.part.spec.domain)
    (hc : rec.collection = b.part.spec.collection) : b.Owns rec :=
  ⟨h.domain_trim.trans hd, h.collection_trim.trans hc⟩

/-- What one accepted mutation does, seen with the mutation that is reported for it. -/
inductive Mutates (b : Batch) (m : AppliedMutation) : Batch → Prop
  | store (entry : RecordEntry) (op : m.operation = .upsert ∨ m.operation = .patch)
      (patches : m.operation = .patch → ∃ old now patch, b.entry (keyOf entry.record) = some old ∧
        normalizePatchRecord now m.record = .ok patch ∧ entry.record = patched old.record patch)
      (key : keyOf m.record = keyOf entry.record) (version : m.version = entry.version)
      (value : m.operation = .upsert → ∃ now, normalizeRecord now m.record = .ok entry.record)
      (fits : b.Fits entry) : Mutates b m (b.store entry)
  | bury (source : String) (op : m.operation = .delete)
    (deletable : b.Deletable (keyOf m.record) m.version)
      (owned : b.Owns m.record) : Mutates b m (b.bury (keyOf m.record) source m.version)

variable (b : Batch) (entry : RecordEntry) (key source : String) (version : ℕ)

@[simp] theorem store_spec : (b.store entry).part.spec = b.part.spec := by
  unfold store storeEntry
  cases b.entry (keyOf entry.record) <;> simp [addIndexesLocked, removeIndexesLocked]

@[simp] theorem store_records :
    (b.store entry).part.registry.records = b.part.registry.records.insert
      (keyOf entry.record) entry := by
  unfold store storeEntry
  cases b.entry (keyOf entry.record) <;> simp [addIndexesLocked, removeIndexesLocked]

@[simp] theorem store_indexes :
    (b.store entry).part.registry.indexes = b.part.registry.indexes := by
  unfold store storeEntry
  cases b.entry (keyOf entry.record) <;> simp [addIndexesLocked, removeIndexesLocked]

@[simp] theorem store_tombstones : (b.store entry).part.tombstones =
    if b.entry (keyOf entry.record) = none then b.part.tombstones.erase (keyOf entry.record)
    else b.part.tombstones := by
  unfold store storeEntry
  cases b.entry (keyOf entry.record) <;> simp [addIndexesLocked, removeIndexesLocked]

@[simp] theorem store_tombOrder : (b.store entry).part.tombOrder = b.part.tombOrder := by
  unfold store storeEntry
  cases b.entry (keyOf entry.record) <;> simp [addIndexesLocked, removeIndexesLocked]

@[simp] theorem store_applied : (b.store entry).part.applied = b.part.applied := by
  unfold store storeEntry
  cases b.entry (keyOf entry.record) <;> simp [addIndexesLocked, removeIndexesLocked]

@[simp] theorem store_applyOrder : (b.store entry).part.applyOrder = b.part.applyOrder := by
  unfold store storeEntry
  cases b.entry (keyOf entry.record) <;> simp [addIndexesLocked, removeIndexesLocked]

@[simp] theorem store_watermarks : (b.store entry).part.watermarks = b.part.watermarks := by
  unfold store storeEntry
  cases b.entry (keyOf entry.record) <;> simp [addIndexesLocked, removeIndexesLocked]

@[simp] theorem store_epoch : (b.store entry).part.epoch = b.part.epoch := by
  unfold store storeEntry
  cases b.entry (keyOf entry.record) <;> simp [addIndexesLocked, removeIndexesLocked]

@[simp] theorem store_bytes :
    (b.store entry).part.bytes = b.nextBytes (b.entry (keyOf entry.record)) entry.bytes := by
  unfold store storeEntry
  cases b.entry (keyOf entry.record) <;> simp [addIndexesLocked, removeIndexesLocked]

@[simp] theorem store_count : (b.store entry).part.records =
    if b.entry (keyOf entry.record) = none then b.part.records + 1 else b.part.records := by
  unfold store storeEntry
  cases b.entry (keyOf entry.record) <;> simp [addIndexesLocked, removeIndexesLocked]

theorem store_entry (k : String) :
    (b.store entry).entry k = if k = keyOf entry.record then some entry else b.entry k := by
  simp [Batch.entry, GoMap.lookup_insert_if]

@[simp] theorem bury_spec : (b.bury key source version).part.spec = b.part.spec := by
  unfold bury
  cases b.entry key <;> simp [buryKey, retireEntry, removeIndexesLocked,
    Partition.rememberTombstoneLocked_eq]

@[simp] theorem bury_records :
    (b.bury key source version).part.registry.records = b.part.registry.records.erase key := by
  unfold bury
  cases h : b.entry key with
  | none =>
    simp only [buryKey, Partition.rememberTombstoneLocked_eq]
    exact (Finmap.ext_lookup fun k => by
      rw [GoMap.lookup_erase_if]
      split_ifs with hk
      · rw [hk]; exact h
      · rfl)
  | some old =>
    simp [buryKey, retireEntry, removeIndexesLocked, Partition.rememberTombstoneLocked_eq]

@[simp] theorem bury_indexes :
    (b.bury key source version).part.registry.indexes = b.part.registry.indexes := by
  unfold bury
  cases b.entry key <;> simp [buryKey, retireEntry, removeIndexesLocked,
    Partition.rememberTombstoneLocked_eq]

@[simp] theorem bury_columnarUnordered :
    (b.bury key source version).part.registry.columnarUnordered =
    b.part.registry.columnarUnordered := by
  unfold bury
  cases b.entry key <;> simp [buryKey, retireEntry, removeIndexesLocked,
    Partition.rememberTombstoneLocked_eq]

@[simp] theorem bury_tombstones : (b.bury key source version).part.tombstones =
    (b.part.rememberTombstoneLocked key source version).tombstones := by
  unfold bury
  cases b.entry key <;> simp [buryKey, retireEntry, removeIndexesLocked,
    Partition.rememberTombstoneLocked_eq,
    Partition.tombOrderWith]

@[simp] theorem bury_tombOrder : (b.bury key source version).part.tombOrder =
    (b.part.rememberTombstoneLocked key source version).tombOrder := by
  unfold bury
  cases b.entry key <;> simp [buryKey, retireEntry, removeIndexesLocked,
    Partition.rememberTombstoneLocked_eq,
    Partition.tombOrderWith]

@[simp] theorem bury_applied : (b.bury key source version).part.applied = b.part.applied := by
  unfold bury
  cases b.entry key <;> simp [buryKey, retireEntry, removeIndexesLocked,
    Partition.rememberTombstoneLocked_eq]

@[simp] theorem bury_applyOrder :
    (b.bury key source version).part.applyOrder = b.part.applyOrder := by
  unfold bury
  cases b.entry key <;> simp [buryKey, retireEntry, removeIndexesLocked,
    Partition.rememberTombstoneLocked_eq]

@[simp] theorem bury_watermarks :
    (b.bury key source version).part.watermarks = b.part.watermarks := by
  unfold bury
  cases b.entry key <;> simp [buryKey, retireEntry, removeIndexesLocked,
    Partition.rememberTombstoneLocked_eq]

@[simp] theorem bury_epoch : (b.bury key source version).part.epoch = b.part.epoch := by
  unfold bury
  cases b.entry key <;> simp [buryKey, retireEntry, removeIndexesLocked,
    Partition.rememberTombstoneLocked_eq]

@[simp] theorem bury_bytes :
    (b.bury key source version).part.bytes =
      b.part.bytes - ((b.entry key).map (·.bytes)).getD 0 := by
  unfold bury
  cases b.entry key <;> simp [buryKey, retireEntry, removeIndexesLocked,
    Partition.rememberTombstoneLocked_eq]

@[simp] theorem bury_count : (b.bury key source version).part.records =
    if b.entry key = none then b.part.records else b.part.records - 1 := by
  unfold bury
  cases b.entry key <;> simp [buryKey, retireEntry, removeIndexesLocked,
    Partition.rememberTombstoneLocked_eq]

theorem bury_entry (k : String) :
    (b.bury key source version).entry k = if k = key then none else b.entry k := by
  simp [Batch.entry, GoMap.lookup_erase_if]

/-! ### Inversion of the event functions -/

variable {b entry key source version}

theorem entry_any_false {f : RecordEntry → Bool} {o : Option RecordEntry} (h : ¬ o.any f = true) :
    ∀ old, o = some old → f old = false := by
  rintro old rfl
  simpa using h

theorem upsertLocked_ok (hn : NormalRecord rec) (hd : rec.domain = b.part.spec.domain)
    (hc : rec.collection = b.part.spec.collection)
    (h : b.upsertLocked now (keyOf rec) rec source version = .ok (state, b')) :
    (state = .ignored ∧ b' = b) ∨ (state = .applied ∧
      b.Fits ⟨rec, source, version, estimateRecordBytes rec, b.part.expiry now⟩ ∧
      b' = b.store ⟨rec, source, version, estimateRecordBytes rec, b.part.expiry now⟩) := by
  unfold upsertLocked at h
  split_ifs at h with h1 h2 h3 h4
  · cases h; exact .inl ⟨rfl, rfl⟩
  · cases h; exact .inl ⟨rfl, rfl⟩
  · cases h
    refine .inr ⟨rfl, ⟨hn, hd, hc, by simpa using h1, fun old ho => ?_, fun ho => ?_,
      not_lt.mp h4, rfl,
      b.part.expiry_of_no_ttl now⟩, rfl⟩
    · simpa using entry_any_false h2 old ho
    · exact not_le.mp fun hle => h3 ⟨ho, hle⟩

def patchEntry (now : Time) (b : Batch) (old : RecordEntry) (patch : DomainRecord) (source : String)
    (version : ℕ) : RecordEntry :=
  ⟨patched old.record patch, source, version, estimateRecordBytes (patched old.record patch),
    b.part.expiry now⟩

theorem patchLocked_ok (hk : b.Keyed)
    (h : b.patchLocked now key patch source version = .ok (state, b')) :
    (state = .ignored ∧ b' = b) ∨ (state = .applied ∧ ∃ old, b.entry key = some old ∧
      b.Fits (b.patchEntry now old patch source version) ∧
        b' = b.store (b.patchEntry now old patch source version)) := by
  unfold patchLocked at h
  split_ifs at h with h1
  · cases h; exact .inl ⟨rfl, rfl⟩
  · cases he : b.entry key with
    | none => rw [he] at h; cases h; exact .inl ⟨rfl, rfl⟩
    | some old =>
      rw [he] at h
      dsimp only at h
      have hkey : keyOf (patched old.record patch) = key := hk.key_eq key old he
      split_ifs at h with h2 h3
      · cases h; exact .inl ⟨rfl, rfl⟩
      · cases h
        refine .inr ⟨rfl, old, rfl, ⟨(hk.normal key old he).of_identity rfl rfl rfl rfl,
          hk.domain_eq key old he,
          hk.collection_eq key old he, ?_, ?_, ?_, ?_, rfl, b.part.expiry_of_no_ttl now⟩, ?_⟩
        · simpa [patchEntry, hkey] using h1
        · simp only [patchEntry, hkey, he]
          rintro _ ⟨⟩
          exact not_lt.mp h2
        · simp [patchEntry, hkey, he]
        · simpa [patchEntry, hkey, he] using h3
        · simp [store, patchEntry, hkey, he]

theorem patchLocked_error (h : b.patchLocked now key patch source version = .error e) :
    e = .projectionLimit := by
  unfold patchLocked at h
  split_ifs at h
  cases he : b.entry key with
  | none => rw [he] at h; cases h
  | some old =>
    rw [he] at h
    dsimp only at h
    split_ifs at h
    cases h
    rfl

theorem deleteLocked_cases (b : Batch) (key source : String) (version : ℕ) :
    b.deleteLocked key source version = (.ignored, b) ∨
      (b.Deletable key version ∧
        b.deleteLocked key source version = (.applied, b.bury key source version)) := by
  unfold deleteLocked bury
  cases he : b.entry key with
  | none =>
    dsimp only
    split_ifs with h
    · exact .inl rfl
    · exact .inr ⟨⟨by simp [he], fun _ => by simpa using h⟩, rfl⟩
  | some old =>
    dsimp only
    split_ifs with h
    · exact .inl rfl
    · refine .inr ⟨⟨?_, by simp [he]⟩, rfl⟩
      rw [he]
      rintro _ ⟨⟩
      exact not_lt.mp h

theorem upsertLocked_error (h : b.upsertLocked now key rec source version = .error e) :
    e = .projectionLimit := by
  unfold upsertLocked at h
  split_ifs at h <;> cases h <;> rfl

theorem Fits.passes_upsert {entry : RecordEntry} (h : b.Fits entry) :
    b.Passes entry.record .upsert entry.version :=
  ⟨h.unblocked, h.newest, h.room, h.bytes_eq ▸ h.space⟩

theorem Fits.passes_patch {old : RecordEntry} (hold : b.entry (keyOf patch) = some old)
    (hkey : keyOf old.record = keyOf patch)
    (h : b.Fits (b.patchEntry now old patch source version)) : b.Passes patch .patch version := by
  have hkey' : keyOf (b.patchEntry now old patch source version).record = keyOf patch := hkey
  have hspace := h.space
  rw [hkey', hold] at hspace
  refine ⟨hkey' ▸ h.unblocked, old, hold, h.newest old (by rw [hkey', hold]), hspace⟩

/-- An accepted event passed its checks and is one mutation, reported with its own record. -/
theorem applyMutationLocked_ok (hk : b.Keyed) (hn : NormalRecord rec)
    (hid : identityOf rec = identityOf event.record)
    (hrec : event.operation ≠ .patch → normalizeRecord now event.record = .ok rec)
    (hpatch : event.operation = .patch → normalizePatchRecord now event.record = .ok rec)
    (hd : rec.domain = b.part.spec.domain) (hc : rec.collection = b.part.spec.collection)
    (h : b.applyMutationLocked now (keyOf rec) rec event.operation source version = .ok (state, b'))
    :
    (state = .ignored ∧ b' = b) ∨ (state = .applied ∧ b.Passes rec event.operation version ∧
      b.Mutates ⟨Progress.acceptedOperation event.operation, event.record, version⟩ b') := by
  have hkey : keyOf event.record = keyOf rec := (keyOf_eq_iff _ _).mpr hid.symm
  have hupsert : event.operation = .unset ∨ event.operation = .upsert →
      b.upsertLocked now (keyOf rec) rec source version = .ok (state, b') →
      (state = .ignored ∧ b' = b) ∨ (state = .applied ∧ b.Passes rec .upsert version ∧
        b.Mutates ⟨Progress.acceptedOperation event.operation, event.record, version⟩ b') := by
    intro hop hu
    have hacc : Progress.acceptedOperation event.operation = .upsert := by
      rcases hop with hop | hop <;> simp [Progress.acceptedOperation, hop]
    rcases upsertLocked_ok hn hd hc hu with hi | ⟨hs, hf, rfl⟩
    · exact .inl hi
    · have hval := hrec (by rcases hop with hop | hop <;> simp [hop])
      exact .inr ⟨hs, hf.passes_upsert, .store _ (.inl hacc) (fun hp => by simp [hacc] at hp) hkey
        rfl (fun _ => ⟨now, hval⟩) hf⟩
  cases hop : event.operation with
  | unset =>
    rw [hop] at h hupsert
    exact hupsert (.inl rfl) h
  | upsert =>
    rw [hop] at h hupsert
    exact hupsert (.inr rfl) h
  | patch =>
    rw [hop] at h
    rcases patchLocked_ok hk h with hi | ⟨hs, old, ho, hf, rfl⟩
    · exact .inl hi
    · have hold := hk.key_eq _ _ ho
      refine .inr ⟨hs, Fits.passes_patch ho hold hf, .store _ (.inr rfl)
        (fun _ => ⟨old, now, rec, ?_, hpatch hop, rfl⟩) (hkey.trans hold.symm) rfl
        (fun hu => by simp [Progress.acceptedOperation] at hu) hf⟩
      rw [show keyOf (b.patchEntry now old rec source version).record = keyOf rec from hold, ho]
  | delete =>
    rw [hop] at h
    have h := Except.ok.inj h
    rcases deleteLocked_cases b (keyOf rec) source version with hi | ⟨hdel, ha⟩
    · rw [hi] at h; cases h; exact .inl ⟨rfl, rfl⟩
    · rw [ha] at h
      cases h
      refine .inr ⟨rfl, hdel, ?_⟩
      have hown : b.Owns event.record := by
        have := owns_normal hn hd hc
        rwa [Owns, hid] at this
      rw [← hkey] at hdel ⊢
      exact .bury source rfl hdel hown
  | other text => rw [hop] at h; cases h

theorem applyMutationLocked_error {operation : Operation}
    (h : b.applyMutationLocked now key rec operation source version = .error e) :
    e = .invalidEvent ∨ e = .projectionLimit := by
  cases operation with
  | unset => exact .inr (upsertLocked_error h)
  | upsert => exact .inr (upsertLocked_error h)
  | patch => exact .inr (patchLocked_error h)
  | delete => cases h
  | other text => cases h; exact .inl rfl

def eventVersion (b : Batch) (event : Event) : ℕ := b.part.effectiveVersion event.version

/-- An event that is not a duplicate and not rejected, once its source is remembered. -/
def remember (b : Batch) (source : String) (version : ℕ) : Batch :=
  { b with part := b.part.rememberAppliedLocked source version }

/-- An event that is new, valid, of the projection, and passes its checks. -/
structure Admits (b : Batch) (now : Time) (event : Event) : Prop where
  fresh : b.part.alreadyAppliedLocked (trimSpace event.sourceID) (b.eventVersion event) = false
  passes : ∃ rec, normalizeEventRecord now event = .ok rec ∧ rec.domain = b.part.spec.domain ∧
    rec.collection = b.part.spec.collection ∧ b.Passes rec event.operation (b.eventVersion event)

theorem applyEventLocked_ok {version : ℕ} (hk : b.Keyed)
    (h : b.applyEventLocked now event = .ok (state, version, b')) :
    (state = .duplicate ∧ b' = b ∧
      b.part.alreadyAppliedLocked (trimSpace event.sourceID) (b.eventVersion event) = true) ∨
    (version = b.eventVersion event ∧
      b.part.alreadyAppliedLocked (trimSpace event.sourceID) (b.eventVersion event) = false ∧
      ((state = .ignored ∧ b' = b.remember (trimSpace event.sourceID) version) ∨
        (state = .applied ∧ b.Admits now event ∧
          ∃ mid, b' = mid.remember (trimSpace event.sourceID) version ∧
          b.Mutates ⟨Progress.acceptedOperation event.operation, event.record, version⟩ mid))) := by
  unfold applyEventLocked at h
  dsimp only at h
  split_ifs at h with hdup
  · cases h
    exact .inl ⟨rfl, rfl, hdup⟩
  · obtain ⟨rec, hrec, h⟩ := except_bind_eq_ok h
    obtain ⟨_, hscope, h⟩ := except_bind_eq_ok h
    obtain ⟨⟨st, mid⟩, hmut, h⟩ := except_bind_eq_ok h
    obtain ⟨hn, hid⟩ := normalizeEventRecord_ok hrec
    cases h
    have hfresh : b.part.alreadyAppliedLocked (trimSpace event.sourceID) (b.eventVersion event) =
        false := by
      simpa [eventVersion] using hdup
    refine .inr ⟨rfl, hfresh, ?_⟩
    unfold validateRecordScope at hscope
    split_ifs at hscope with hsc
    rw [not_or, not_ne_iff, not_ne_iff] at hsc
    have hval : event.operation ≠ .patch → normalizeRecord now event.record = .ok rec := by
      intro hop
      rw [normalizeEventRecord, if_neg hop] at hrec
      exact hrec
    have hpatch : event.operation = .patch → normalizePatchRecord now event.record = .ok rec := by
      intro hop
      rw [normalizeEventRecord, if_pos hop] at hrec
      exact hrec
    rcases applyMutationLocked_ok hk hn hid hval hpatch hsc.1 hsc.2 hmut with
      ⟨hs, rfl⟩ | ⟨hs, hpass, hm⟩
    · exact .inl ⟨hs, rfl⟩
    · exact .inr ⟨hs, ⟨hfresh, rec, hrec, hsc.1, hsc.2, hpass⟩, mid, rfl, hm⟩

theorem applyEventLocked_error (h : b.applyEventLocked now event = .error e) :
    e = .invalidEvent ∨ e = .projectionLimit := by
  unfold applyEventLocked at h
  dsimp only at h
  split_ifs at h
  rcases except_bind_eq_error h with hrec | ⟨rec, -, h⟩
  · exact .inl (normalizeEventRecord_error hrec)
  rcases except_bind_eq_error h with hscope | ⟨_, -, h⟩
  · unfold validateRecordScope at hscope
    split_ifs at hscope
    exact .inl (Except.error.inj hscope).symm
  rcases except_bind_eq_error h with hmut | ⟨_, -, h⟩
  · exact applyMutationLocked_error hmut
  · cases h

end Batch

end Foundation.Hermes
