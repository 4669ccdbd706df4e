import Foundation.Sanity.Bulk

/-! Base records in the hot plane: what the base streams and writes, the source ids its
writes carry, and what a bulk load of its records holds. -/

namespace Foundation.Hermes

open Go

/-! ### Base records -/

/-- A stored record passes the hot plane's normalization unchanged. -/
theorem normalizeRecord_stored {rec : DomainRecord} (h : Stored rec) (ho : rec.organizationID ≠ "")
    (now : Time) :
    normalizeRecord now rec = .ok rec := by
  have hblank : ¬ (rec.domain = "" ∨ rec.collection = "" ∨ rec.organizationID = "" ∨
      rec.recordID = "") := by
    simp [h.domain_ne, h.collection_ne, ho, h.recordID_ne]
  unfold normalizeRecord normalizeIdentity
  simp only [h.domain_trim, h.collection_trim, h.organizationID_trim, h.recordID_trim, h.stamped ho]
  rw [if_neg hblank]
  simp [bind, Except.bind, pure, Except.pure, orNow, h.createdAt_pos.ne', h.updatedAt_pos.ne']

variable {o : RangeOrder RecordIdentity}

theorem mem_candidates {db : BaseStore} {domain collection organizationID : String}
    {filters : List RecordFilter} (hd : trimSpace domain ≠ "") (hc : trimSpace collection ≠ "")
    (ho : trimSpace organizationID ≠ "") (rec : DomainRecord) :
    rec ∈ db.candidates o domain collection organizationID filters ↔
      db.records.lookup (identityOf rec) = some rec ∧ (rec.domain = trimSpace domain ∧
        rec.collection = trimSpace collection ∧ rec.organizationID = trimSpace organizationID) ∧
        rec.data.matches (BaseStore.normalizeRecordFilters filters) = true := by
  have hmatch : BaseStore.recordMatches rec (trimSpace domain) (trimSpace collection)
      (trimSpace organizationID)
      (BaseStore.normalizeRecordFilters filters) = true ↔ (rec.domain = trimSpace domain ∧
        rec.collection = trimSpace collection ∧ rec.organizationID = trimSpace organizationID) ∧
        rec.data.matches (BaseStore.normalizeRecordFilters filters) = true := by
    unfold BaseStore.recordMatches
    split_ifs <;> simp_all
  unfold BaseStore.candidates
  rw [List.mem_filter, hmatch, List.mem_filterMap]
  refine and_congr_left fun _ => ⟨?_, fun hl => ⟨identityOf rec, ?_, hl⟩⟩
  · rintro ⟨id, -, hl⟩
    rw [(db.stored id rec hl).1]
    exact hl
  · rw [o.mem, GoMap.mem_keys_iff]
    exact ⟨rec, hl⟩

/-- Within the limit the base streams every matching record of the scope. -/
theorem mem_forEachRecord {db : BaseStore} {domain collection organizationID : String}
    {query : RecordQuery}
    (hcount : db.countRecords o domain collection organizationID query ≤ query.limit)
    (rec : DomainRecord) :
    rec ∈ db.forEachRecord o domain collection organizationID query ↔
      rec ∈ db.candidates o domain collection organizationID query.filters := by
  unfold BaseStore.forEachRecord
  dsimp only
  split_ifs
  · rw [List.take_of_length_le, List.mem_insertionSort]
    rw [List.length_insertionSort]
    unfold BaseStore.countRecords at hcount
    omega
  · rw [List.mem_insertionSort]

theorem streamRebuildRecords_ok {source : BaseStore} {spec : ProjectionSpec}
    {organizationID : String} {query : RecordQuery} {records : List DomainRecord}
    (h : Store.streamRebuildRecords o source spec organizationID query = .ok records) :
    trimSpace organizationID ≠ "" ∧ records = source.forEachRecord o spec.domain spec.collection
      (trimSpace organizationID)
      { query with limit := if query.limit ≤ 0 then spec.maxRecords else query.limit } := by
  unfold Store.streamRebuildRecords at h
  by_cases horg : trimSpace organizationID = ""
  · rw [if_pos horg] at h
    cases h
  · rw [if_neg horg] at h
    exact ⟨horg, (Except.ok.inj h).symm⟩

namespace ProjectedRuntimeStore

theorem normalizeRecord_nonblank {rec : DomainRecord} (now : Time) (hd : trimSpace rec.domain ≠ "")
    (hc : trimSpace rec.collection ≠ "") (ho : trimSpace rec.organizationID ≠ "")
    (hi : trimSpace rec.recordID ≠ "") : ∃ out, normalizeRecord now rec = .ok out ∧
      out.domain = trimSpace rec.domain ∧ out.collection = trimSpace rec.collection := by
  unfold normalizeRecord normalizeIdentity
  dsimp only
  rw [if_neg (by simp [hd, hc, ho, hi])]
  exact ⟨_, rfl, rfl, rfl⟩

theorem upsertRecord_ok {db db' : BaseStore} {now : Time} {hnow : 0 < now}
    {rec saved : DomainRecord} (h : db.upsertRecord now hnow rec = .ok (saved, db')) :
    saved = db.saved now rec ∧ db'.records = db.records.insert (identityOf rec) saved := by
  unfold BaseStore.upsertRecord at h
  split at h
  · cases h
  · obtain ⟨rfl, rfl⟩ := Prod.mk.inj (Except.ok.inj h)
    exact ⟨rfl, rfl⟩

theorem deleteBase_lookup (db : BaseStore) (rec : DomainRecord) (id : RecordIdentity) :
    (deleteBase db rec).records.lookup id = if id = identityOf rec then none
      else db.records.lookup id :=
  GoMap.lookup_erase_if _ _ _

/-! ### Source ids -/

theorem append_regroup (st sep a b c d e v : String) :
    st ++ sep ++ a ++ sep ++ b ++ sep ++ c ++ sep ++ d ++ sep ++ e ++ sep ++ v =
      st ++ (sep ++ a ++ sep ++ b ++ sep ++ c ++ sep ++ d ++ sep ++ e ++ sep) ++ v := by
  simp only [String.append_assoc]

theorem trimSpace_sourceID (label : String) (rec : DomainRecord) (version : ℕ) :
    trimSpace (sourceID label rec version) = sourceID label rec version := by
  unfold sourceID
  rw [append_regroup]
  exact trimSpace_between _ (by decide) (trimSpace_repr version) (by decide) (repr_ne_empty version)

theorem sourceWatermarkPrefix_sourceID (label : String) (rec : DomainRecord) (version : ℕ) :
    Partition.sourceWatermarkPrefix (sourceID label rec version) = some "state" := by
  have hgroup : ∀ st sep a b c d e v : String,
      st ++ sep ++ a ++ sep ++ b ++ sep ++ c ++ sep ++ d ++ sep ++ e ++ sep ++ v =
        st ++ sep ++ (a ++ sep ++ b ++ sep ++ c ++ sep ++ d ++ sep ++ e ++ sep ++ v) :=
          fun _ _ _ _ _ _ _ _ => by
    simp only [String.append_assoc]
  unfold Partition.sourceWatermarkPrefix sourceID
  rw [hgroup]
  exact cutBefore_append _ (by decide) (by decide)

theorem sourceID_version_inj {label label' : String} {a b : DomainRecord} {v v' : ℕ}
    (h : sourceID label a v = sourceID label' b v') : v = v' := by
  unfold sourceID at h
  exact append_repr_inj (c := ':') (by decide) (by decide) h

end ProjectedRuntimeStore

/-! ### Loading base records -/

namespace Progress

variable {db : BaseStore}

/-- A base record that the hot plane accepts is stored as it is. -/
theorem normalizeRecord_base {now : Time} {rec out : DomainRecord}
    (hbase : db.records.lookup (identityOf rec) = some rec)
    (h : normalizeRecord now rec = .ok out) : out = rec := by
  have hst := (db.stored _ _ hbase).2
  obtain ⟨hn, hid⟩ := normalizeRecord_ok h
  have horg : out.organizationID = rec.organizationID := by
    have ho := congrArg RecordIdentity.organizationID hid
    simp only [identityOf, recordIdentity] at ho
    rw [← hn.organizationID_trim, ho, hst.organizationID_trim]
  rw [normalizeRecord_stored hst (horg ▸ hn.organizationID_ne)] at h
  exact (Except.ok.inj h).symm

end Progress

namespace ProjectedRuntimeStore

theorem bulkStream_entry {db : BaseStore} {env : Env} {spec : NormalSpec} {st : Partition.BulkState}
    {records : List DomainRecord}
    (hbase : ∀ rec ∈ records, db.records.lookup (identityOf rec) = some rec)
    (h : Partition.bulkStream env spec records = .ok st) :
    Partition.BulkInv spec st ∧ (∀ key e, st.batch.entry key = some e → e.record ∈ records) ∧
      ∀ rec ∈ records, st.batch.entry (keyOf rec) ≠ none := by
  obtain ⟨hi, hfrom, -, hall⟩ := Partition.bulkLoop_ok (Partition.bulkInv_start spec) h
  refine ⟨hi, fun key e he => ?_, hall⟩
  rcases hfrom key e he with hnone | ⟨rec, hr, now, -, hn⟩
  · cases hnone
  · rw [Progress.normalizeRecord_base (hbase rec hr) hn]
    exact hr

end ProjectedRuntimeStore

end Foundation.Hermes
