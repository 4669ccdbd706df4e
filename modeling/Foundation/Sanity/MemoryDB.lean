import Foundation.Spec.MemoryDB

/-! What every write to the in-memory database keeps: the indexes hold exactly the stored
records, and every record is stored under its own key. -/

namespace Foundation.Database

open Go InvertedIndex

/-- A record as an upsert leaves it. -/
structure Kept (rec : DomainRecord) : Prop where
  domain_trim : trimSpace rec.domain = rec.domain
  collection_trim : trimSpace rec.collection = rec.collection
  organizationID_trim : trimSpace rec.organizationID = rec.organizationID
  recordID_trim : trimSpace rec.recordID = rec.recordID
  normal : RecordData.Normal rec.data

theorem savedRecord_kept (now : Time) (existing : Option DomainRecord) (rec : DomainRecord) :
    Kept (BaseStore.savedRecord now existing rec) := by
  refine ⟨trimSpace_trimSpace _, trimSpace_trimSpace _, trimSpace_trimSpace _,
    trimSpace_trimSpace _, ?_⟩
  unfold BaseStore.savedRecord
  dsimp only
  split_ifs
  · exact RecordData.normalize_normal _
  · exact RecordData.normalize_normal _

theorem identityOf_savedRecord (now : Time) (existing : Option DomainRecord) (rec : DomainRecord) :
    identityOf (BaseStore.savedRecord now existing rec) = identityOf rec := by
  simp [identityOf, recordIdentity, BaseStore.savedRecord]

def keyOfIdentity (id : RecordIdentity) : String :=
  recordKey id.domain id.collection id.organizationID id.recordID

theorem recordKey_eq (domain collection organizationID recordID : String) :
    recordKey domain collection organizationID recordID =
      keyOfIdentity (recordIdentity domain collection organizationID recordID) := by
  simp [keyOfIdentity, recordKey, recordIdentity]

theorem keyOf_eq (rec : DomainRecord) : keyOf rec = keyOfIdentity (identityOf rec) :=
  recordKey_eq _ _ _ _

/-- A call that fails before it reaches the records. -/
def Write.Fails : Write → Prop
  | .upsert ctxDone _ rec => ctxDone = true ∨ BaseStore.validate rec ≠ .ok ()
  | .delete ctxDone _ _ _ _ => ctxDone = true
  | .deleteOrg ctxDone _ _ => ctxDone = true

variable {organizationID : String}

namespace MemoryDB

variable {db : MemoryDB} {key : String} {rec : DomainRecord}

/-! ### Field by field -/

@[simp] theorem clearLocked_records (db : MemoryDB) (key : String) :
    (db.clearLocked key).records = db.records := by
  unfold clearLocked
  split <;> rfl

@[simp] theorem clearLocked_closed (db : MemoryDB) (key : String) :
    (db.clearLocked key).closed = db.closed := by
  unfold clearLocked
  split <;> rfl

theorem upsertLocked_records (db : MemoryDB) (now : Time) (rec : DomainRecord) :
    (db.upsertLocked now rec).2.records =
      db.records.insert (keyOf rec)
        (BaseStore.savedRecord now (db.records.lookup (keyOf rec)) rec) :=
  congrArg
    (fun records => records.insert (keyOf rec)
    (BaseStore.savedRecord now (db.records.lookup (keyOf rec)) rec))
    (db.clearLocked_records (keyOf rec))

theorem deleteLocked_records (db : MemoryDB) (key : String) :
    (db.deleteLocked key).records = db.records.erase key :=
  congrArg (fun records => records.erase key) (db.clearLocked_records key)

/-! ### Indexes -/

/-- The indexes hold the records of a map. -/
structure IndexesHold (db : MemoryDB) (records : GoMap String DomainRecord) : Prop where
  byScope : Indexes (fun rec => [scopeOf rec]) records db.byScope
  byOrg : Indexes orgOf records db.byOrg
  byField : Indexes forEachRecordFieldIndex records db.byField

theorem indexesHold_empty : ({} : MemoryDB).IndexesHold ∅ :=
  ⟨indexes_empty _, indexes_empty _, indexes_empty _⟩

theorem IndexesHold.remove (h : db.IndexesHold db.records)
    (hrec : db.records.lookup key = some rec) :
    (db.removeRecordIndexesLocked key rec).IndexesHold (db.records.erase key) :=
  ⟨h.byScope.remove hrec, h.byOrg.remove hrec, h.byField.remove hrec⟩

theorem IndexesHold.clear (h : db.IndexesHold db.records) (key : String) :
    (db.clearLocked key).IndexesHold (db.records.erase key) := by
  unfold clearLocked
  cases hrec : db.records.lookup key with
  | none => exact ⟨h.byScope.erase_none hrec, h.byOrg.erase_none hrec, h.byField.erase_none hrec⟩
  | some rec => exact h.remove hrec

theorem IndexesHold.add {records : GoMap String DomainRecord}
    (h : db.IndexesHold (records.erase key)) (rec : DomainRecord) :
    (db.addRecordIndexesLocked key rec).IndexesHold (records.insert key rec) :=
  ⟨h.byScope.add rec, h.byOrg.add rec, h.byField.add rec⟩

/-- What holds after every write. -/
structure Consistent (db : MemoryDB) : Prop where
  ready : db.closed = false
  indexes : db.IndexesHold db.records
  kept : ∀ key rec, db.records.lookup key = some rec → keyOf rec = key ∧ Kept rec

theorem consistent_empty : ({} : MemoryDB).Consistent :=
  ⟨rfl, indexesHold_empty, fun _ _ h => by cases h⟩

theorem Consistent.upsert (h : db.Consistent) (now : Time) (rec : DomainRecord) :
    (db.upsertLocked now rec).2.Consistent := by
  refine ⟨?_, ?_, fun key r hr => ?_⟩
  · exact (db.clearLocked_closed (keyOf rec)).trans h.ready
  · have hadd :=
      (h.indexes.clear (keyOf rec)).add
      (BaseStore.savedRecord now (db.records.lookup (keyOf rec)) rec)
    rw [upsertLocked_records]
    exact ⟨hadd.byScope, hadd.byOrg, hadd.byField⟩
  · rw [upsertLocked_records, GoMap.lookup_insert_if] at hr
    split_ifs at hr with hk
    · obtain rfl := Option.some.inj hr
      refine ⟨?_, savedRecord_kept _ _ _⟩
      rw [keyOf_eq, identityOf_savedRecord, ← keyOf_eq, hk]
    · exact h.kept key r hr

theorem Consistent.delete (h : db.Consistent) (key : String) :
    (db.deleteLocked key).Consistent := by
  refine ⟨?_, ?_, fun k r hr => ?_⟩
  · exact (db.clearLocked_closed key).trans h.ready
  · have hclear := h.indexes.clear key
    rw [deleteLocked_records]
    exact ⟨hclear.byScope, hclear.byOrg, hclear.byField⟩
  · rw [deleteLocked_records, GoMap.lookup_erase_if] at hr
    split_ifs at hr
    exact h.kept k r hr

/-! ### Deleting an organization -/

theorem deleteOrgKey_eq {n : ℤ} (hrec : db.records.lookup key = some rec) :
    deleteOrgKey (n, db) key = (n + 1, db.deleteLocked key) := by
  unfold deleteOrgKey deleteLocked clearLocked
  rw [hrec]
  rfl

/-- Deleting keys one after another, as the loop over an organization does. -/
theorem deleteOrgKeys (h : db.Consistent) {keys : List String} (hnodup : keys.Nodup)
    (hstored : ∀ key ∈ keys, ∃ rec, db.records.lookup key = some rec) (n : ℤ) :
    keys.foldl deleteOrgKey (n, db) = (n + keys.length, keys.foldl deleteLocked db) := by
  induction keys generalizing db n with
  | nil => simp
  | cons key rest ih =>
    obtain ⟨hkey, hrest⟩ := List.nodup_cons.mp hnodup
    obtain ⟨rec, hrec⟩ := hstored key List.mem_cons_self
    rw [List.foldl_cons, deleteOrgKey_eq hrec, ih (h.delete key) hrest, List.foldl_cons,
      List.length_cons]
    · push_cast
      rw [add_assoc, add_comm 1]
    · intro k hk
      rw [deleteLocked_records, GoMap.lookup_erase_if, if_neg (ne_of_mem_of_not_mem hk hkey)]
      exact hstored k (List.mem_cons_of_mem _ hk)

theorem deleteKeys_rule {P : MemoryDB → Prop} (step : ∀ db key, P db → P (db.deleteLocked key))
    (h : P db) (keys : List String) : P (keys.foldl deleteLocked db) := by
  induction keys generalizing db with
  | nil => exact h
  | cons key rest ih => exact ih (step db key h)

theorem deleteKeys_lookup (keys : List String) (db : MemoryDB) (k : String) :
    (keys.foldl deleteLocked db).records.lookup k = if k ∈ keys then none
      else db.records.lookup k := by
  induction keys generalizing db with
  | nil => simp
  | cons key rest ih =>
    rw [List.foldl_cons, ih, deleteLocked_records, GoMap.lookup_erase_if]
    by_cases hk : k = key
    · simp [hk]
    · simp [hk]

theorem mem_byOrg (h : db.Consistent) (hne : organizationID ≠ "") (key : String) :
    key ∈ keysAt db.byOrg organizationID ↔
      ∃ rec, db.records.lookup key = some rec ∧ rec.organizationID = organizationID := by
  rw [h.indexes.byOrg.mem_iff]
  refine exists_congr fun rec => and_congr_right fun _ => ?_
  unfold orgOf
  split_ifs with ho
  · rw [List.mem_singleton, eq_comm]
  · rw [not_not] at ho
    rw [ho]
    exact ⟨fun hm => absurd hm List.not_mem_nil, fun heq => absurd heq.symm hne⟩

/-- Deleting an organization deletes its records, in any order of the keys. -/
theorem deleteOrgLocked_eq (h : db.Consistent) (order : RangeOrder String)
    (hne : organizationID ≠ "") :
    (db.deleteOrgLocked order organizationID).2 =
      { (order.visit (keysAt db.byOrg organizationID)).foldl deleteLocked db with
        byOrg :=
          ((order.visit (keysAt db.byOrg organizationID)).foldl deleteLocked db).byOrg.erase
          organizationID } := by
  unfold deleteOrgLocked
  rw [if_neg hne, deleteOrgKeys h (order.nodup _)]
  intro key hkey
  rw [order.mem, mem_byOrg h hne] at hkey
  exact hkey.imp fun _ hr => hr.1

theorem deleteOrgLocked_lookup (h : db.Consistent) (order : RangeOrder String)
    (hne : organizationID ≠ "") (k : String) :
    (db.deleteOrgLocked order organizationID).2.records.lookup k =
      (db.records.lookup k).filter fun rec => rec.organizationID ≠ organizationID := by
  rw [deleteOrgLocked_eq h order hne]
  dsimp only
  rw [deleteKeys_lookup]
  simp only [order.mem, mem_byOrg h hne]
  cases hrec : db.records.lookup k with
  | none => simp
  | some rec =>
    by_cases ho : rec.organizationID = organizationID
    · simp [Option.filter, ho]
    · simp [Option.filter, ho]

theorem Consistent.deleteOrg (h : db.Consistent) (order : RangeOrder String)
    (organizationID : String) :
    (db.deleteOrgLocked order organizationID).2.Consistent := by
  by_cases hne : organizationID = ""
  · unfold deleteOrgLocked
    rw [if_pos hne]
    exact h
  · have hc : ((order.visit (keysAt db.byOrg organizationID)).foldl deleteLocked db).Consistent :=
      deleteKeys_rule (P := Consistent) (fun _ key hdb => hdb.delete key) h _
    have hlook := deleteOrgLocked_lookup h order hne
    rw [deleteOrgLocked_eq h order hne] at hlook ⊢
    dsimp only at hlook
    refine ⟨hc.ready, ⟨hc.indexes.byScope, hc.indexes.byOrg.erase_label ?_, hc.indexes.byField⟩,
      hc.kept⟩
    refine Finset.eq_empty_of_forall_notMem fun key hkey => ?_
    obtain ⟨rec, hrec, ho⟩ := (mem_byOrg hc hne key).mp hkey
    rw [hlook] at hrec
    simpa [ho] using (Option.filter_eq_some_iff.mp hrec).2

/-! ### Runs -/

/-- What a call does: nothing, an accepted upsert, a deletion of a key or of an organization. -/
theorem exec_cases (hready : db.closed = false) (w : Write) : (w.Fails ∧ db.exec w = db) ∨
    (∃ now rec, w = .upsert false now rec ∧ BaseStore.validate rec = .ok () ∧
      db.exec w = (db.upsertLocked now rec).2) ∨
    (∃ d c o r, w = .delete false d c o r ∧ db.exec w = db.deleteLocked (recordKey d c o r)) ∨
    ∃ order o, w = .deleteOrg false order o ∧
      db.exec w = (db.deleteOrgLocked order (trimSpace o)).2 := by
  have hfalse : db.ensureReady false = .ok () := by
    unfold ensureReady
    rw [hready]
    rfl
  cases w with
  | upsert ctxDone now rec =>
    cases ctxDone with
    | true => exact .inl ⟨.inl rfl, rfl⟩
    | false =>
      rw [exec, upsertRecord, hfalse]
      cases hv : BaseStore.validate rec with
      | error e => exact .inl ⟨.inr (by rw [hv]; simp), rfl⟩
      | ok u => exact .inr (.inl ⟨now, rec, rfl, hv, rfl⟩)
  | delete ctxDone d c o r =>
    cases ctxDone with
    | true => exact .inl ⟨rfl, rfl⟩
    | false =>
      refine .inr (.inr (.inl ⟨d, c, o, r, rfl, ?_⟩))
      rw [exec, deleteRecord, hfalse]
      rfl
  | deleteOrg ctxDone order o =>
    cases ctxDone with
    | true => exact .inl ⟨rfl, rfl⟩
    | false =>
      refine .inr (.inr (.inr ⟨order, o, rfl, ?_⟩))
      rw [exec, deleteRecordsByOrganization, hfalse]
      rfl

theorem Consistent.exec (h : db.Consistent) (w : Write) : (db.exec w).Consistent := by
  rcases exec_cases h.ready w with ⟨-, heq⟩ | ⟨now, rec, -, -, heq⟩ | ⟨d, c, o, r, -,
    heq⟩ | ⟨order, o, -, heq⟩
  · rw [heq]
    exact h
  · rw [heq]
    exact h.upsert now rec
  · rw [heq]
    exact h.delete _
  · rw [heq]
    exact h.deleteOrg order _

end MemoryDB

end Foundation.Database
