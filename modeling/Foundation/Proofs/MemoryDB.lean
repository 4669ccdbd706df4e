import Foundation.Sanity.MemoryDB

/-! The in-memory database as a map. Records are stored under joined keys, and different
identities can join to one key. As long as no call meets a record of another identity under its
key, every read gives what a map from identities to data gives. -/

namespace Foundation.Database

open Go InvertedIndex

/-- The data every identity holds: what the last accepted upsert of it saved, unless a deletion
of it or of its organization came after. -/
abbrev Contents := RecordIdentity → Option RecordData

def savedData (rec : DomainRecord) : RecordData := (BaseStore.savedRecord 0 none rec).data

/-- A write to a map. A call whose context is done, an upsert of a blank identity and the deletion
of a blank organization do nothing. -/
def Contents.exec (contents : Contents) : Write → Contents
  | .upsert ctxDone _ rec =>
    if ctxDone = false ∧ BaseStore.validate rec = .ok () then
      Function.update contents (identityOf rec) (some (savedData rec))
    else contents
  | .delete ctxDone domain collection organizationID recordID =>
    if ctxDone then contents
    else Function.update contents (recordIdentity domain collection organizationID recordID) none
  | .deleteOrg ctxDone _ organizationID =>
    if ctxDone ∨ trimSpace organizationID = "" then contents
    else fun id => if id.organizationID = trimSpace organizationID then none else contents id

/-- What is stored under a key, if anything, is of the identity. -/
def MemoryDB.OwnKey (db : MemoryDB) (id : RecordIdentity) : Prop :=
  ∀ rec, db.records.lookup (keyOfIdentity id) = some rec → identityOf rec = id

/-- A write that meets no record of another identity under its key. -/
def Write.Apart (db : MemoryDB) : Write → Prop
  | .upsert _ _ rec => db.OwnKey (identityOf rec)
  | .delete _ domain collection organizationID recordID =>
    db.OwnKey (recordIdentity domain collection organizationID recordID)
  | .deleteOrg _ _ _ => True

/-- Every write of a run is apart in the state it finds. -/
def ApartRun : MemoryDB → List Write → Prop
  | _, [] => True
  | db, w :: rest => w.Apart db ∧ ApartRun (db.exec w) rest

variable {w : Write} {writes : List Write}

namespace MemoryDB

variable {db : MemoryDB}

def dataOf (db : MemoryDB) (id : RecordIdentity) : Option RecordData :=
  ((db.records.lookup (keyOfIdentity id)).filter fun rec => identityOf rec = id).map (·.data)

theorem dataOf_eq_of_lookup {db' : MemoryDB} {id : RecordIdentity}
    (h : db'.records.lookup (keyOfIdentity id) = db.records.lookup (keyOfIdentity id)) :
    db'.dataOf id = db.dataOf id := by
  unfold dataOf
  rw [h]

/-- Under a key that is its owner's alone, another identity of the key holds nothing. -/
theorem OwnKey.dataOf_other {id other : RecordIdentity} (h : db.OwnKey id)
    (hkey : keyOfIdentity other = keyOfIdentity id) (hne : other ≠ id) :
    db.dataOf other = none := by
  unfold dataOf
  rw [hkey, Option.map_eq_none_iff, Option.filter_eq_none_iff]
  intro rec hrec
  rw [h rec hrec]
  simpa using hne.symm

theorem dataOf_upsert (now : Time) {rec : DomainRecord} (h : db.OwnKey (identityOf rec)) :
    (db.upsertLocked now rec).2.dataOf = Function.update db.dataOf (identityOf rec)
      (some (savedData rec)) := by
  have hlook : ∀ k, (db.upsertLocked now rec).2.records.lookup k = if k =
      keyOfIdentity (identityOf rec) then
      some (BaseStore.savedRecord now (db.records.lookup (keyOf rec)) rec) else
        db.records.lookup k := by
    intro k
    rw [upsertLocked_records, GoMap.lookup_insert_if, keyOf_eq]
  funext id
  by_cases hid : id = identityOf rec
  · subst hid
    rw [Function.update_self, dataOf, hlook, if_pos rfl, Option.filter_some, identityOf_savedRecord]
    simp [savedData, BaseStore.savedRecord]
  · rw [Function.update_of_ne hid]
    by_cases hkey : keyOfIdentity id = keyOfIdentity (identityOf rec)
    · rw [h.dataOf_other hkey hid, dataOf, hlook, if_pos hkey, Option.filter_some,
        identityOf_savedRecord]
      simp [Ne.symm hid]
    · refine dataOf_eq_of_lookup ?_
      rw [hlook, if_neg hkey]

theorem dataOf_delete {id : RecordIdentity} (h : db.OwnKey id) :
    (db.deleteLocked (keyOfIdentity id)).dataOf = Function.update db.dataOf id none := by
  have hlook : ∀ k, (db.deleteLocked (keyOfIdentity id)).records.lookup k =
      if k = keyOfIdentity id then none else db.records.lookup k := by
    intro k
    rw [deleteLocked_records, GoMap.lookup_erase_if]
  funext other
  by_cases hid : other = id
  · subst hid
    rw [Function.update_self, dataOf, hlook, if_pos rfl]
    rfl
  · rw [Function.update_of_ne hid]
    by_cases hkey : keyOfIdentity other = keyOfIdentity id
    · rw [h.dataOf_other hkey hid, dataOf, hlook, if_pos hkey]
      rfl
    · refine dataOf_eq_of_lookup ?_
      rw [hlook, if_neg hkey]

theorem dataOf_deleteOrg (hc : db.Consistent) (order : RangeOrder String) {organizationID : String}
    (hne : organizationID ≠ "") (id : RecordIdentity) :
    (db.deleteOrgLocked order organizationID).2.dataOf id =
      if id.organizationID = organizationID then none else db.dataOf id := by
  unfold dataOf
  rw [deleteOrgLocked_lookup hc order hne]
  cases hrec : db.records.lookup (keyOfIdentity id) with
  | none => simp
  | some rec =>
    have horg : identityOf rec = id → rec.organizationID = id.organizationID := by
      rintro rfl
      exact ((hc.kept _ _ hrec).2.organizationID_trim).symm
    by_cases hid : identityOf rec = id
    · rw [← horg hid]
      by_cases ho : rec.organizationID = organizationID
      · simp [Option.filter, ho]
      · simp [Option.filter, ho, hid]
    · by_cases ho : rec.organizationID = organizationID
      · simp [Option.filter, ho, hid]
      · simp [Option.filter, ho, hid]

/-- A write that is apart changes the data of the identities as a write to a map does. -/
theorem dataOf_exec (hc : db.Consistent) (h : w.Apart db) :
    (db.exec w).dataOf = Contents.exec db.dataOf w := by
  rcases exec_cases hc.ready w with ⟨hfails, heq⟩ | ⟨now, rec, rfl, hv, heq⟩ | ⟨d, c, o,
    r, rfl, heq⟩ |
    ⟨order, o, rfl, heq⟩
  · rw [heq]
    cases w with
    | upsert ctxDone now rec =>
      refine (if_neg fun hok => ?_).symm
      rcases hfails with hctx | hv
      · rw [hctx] at hok
        cases hok.1
      · exact hv hok.2
    | delete ctxDone d c o r => exact (if_pos hfails).symm
    | deleteOrg ctxDone order o => exact (if_pos (.inl hfails)).symm
  · rw [heq, dataOf_upsert now h]
    exact (if_pos ⟨rfl, hv⟩).symm
  · rw [heq, recordKey_eq, dataOf_delete h]
    rfl
  · rw [heq]
    by_cases hblank : trimSpace o = ""
    · have hsame : db.deleteOrgLocked order (trimSpace o) = (0, db) := if_pos hblank
      rw [hsame]
      exact (if_pos (.inr hblank)).symm
    · funext id
      rw [dataOf_deleteOrg hc order hblank]
      have hexec : Contents.exec db.dataOf (.deleteOrg false order o) =
          fun id => if id.organizationID = trimSpace o then none else db.dataOf id :=
        if_neg (by rw [not_or]; exact ⟨by decide, hblank⟩)
      rw [hexec]

theorem dataOf_run (hc : db.Consistent) (h : ApartRun db writes) :
    (writes.foldl exec db).Consistent ∧
      (writes.foldl exec db).dataOf = writes.foldl Contents.exec db.dataOf := by
  induction writes generalizing db with
  | nil => exact ⟨hc, rfl⟩
  | cons w rest ih =>
    rw [List.foldl_cons, List.foldl_cons, ← dataOf_exec hc h.1]
    exact ih (hc.exec w) h.2

/-- After a run whose writes are all apart, a read that is apart gives the data of the map. -/
theorem getRecord_refines_map (writes : List Write) (h : ApartRun {} writes)
    (domain collection organizationID recordID : String)
    (hget : (writes.foldl exec {}).OwnKey
      (recordIdentity domain collection organizationID recordID)) :
    ((writes.foldl exec {}).getRecord false domain collection organizationID recordID).map
      (·.map (·.data)) =
      .ok (writes.foldl Contents.exec (fun _ => none)
        (recordIdentity domain collection organizationID recordID)) := by
  obtain ⟨hc, hdata⟩ := dataOf_run consistent_empty h
  have hempty : ({} : MemoryDB).dataOf = fun _ => none := rfl
  rw [← hempty, ← hdata, dataOf]
  unfold getRecord ensureReady
  rw [hc.ready, recordKey_eq]
  refine congrArg Except.ok (congrArg (Option.map _) (Eq.symm ?_))
  cases hrec : (writes.foldl exec {}).records.lookup
    (keyOfIdentity (recordIdentity domain collection organizationID recordID)) with
  | none => rfl
  | some rec => simp [Option.filter, hget rec hrec]

end MemoryDB

/-! ### Parts without the separator -/

/-- No part of the identity has the separator of the joined keys. -/
def Unseparated (id : RecordIdentity) : Prop :=
  ∀ part ∈ [id.domain, id.collection, id.organizationID, id.recordID], '|' ∉ part.toList

instance (id : RecordIdentity) : Decidable (Unseparated id) :=
  inferInstanceAs (Decidable (∀ part ∈ [id.domain, id.collection, id.organizationID, id.recordID],
    '|' ∉ part.toList))

theorem recordKey_inj {d c o r d' c' o' r' : String} (h : Unseparated (recordIdentity d c o r))
    (h' : Unseparated (recordIdentity d' c' o' r'))
    (heq : recordKey d c o r = recordKey d' c' o' r') :
    recordIdentity d c o r = recordIdentity d' c' o' r' := by
  have hjoin : ∀ d c o r : String, (recordKey d c o r).toList = ['|'].intercalate
      ([trimSpace d, trimSpace c, trimSpace o, trimSpace r].map String.toList) := by
    intro d c o r
    simp [recordKey, List.intercalate]
  have hparts :=
    intercalate_sep_inj (by simp) (by simp) (List.forall_mem_map.mpr h) (List.forall_mem_map.mpr h')
    (((hjoin d c o r).symm.trans (congrArg String.toList heq)).trans (hjoin d' c' o' r'))
  simpa [recordIdentity] using List.map_injective_iff.mpr
    (fun _ _ => String.toList_injective) hparts

def Write.Unseparated : Write → Prop
  | .upsert _ _ rec => Database.Unseparated (identityOf rec)
  | .delete _ domain collection organizationID recordID =>
    Database.Unseparated (recordIdentity domain collection organizationID recordID)
  | .deleteOrg _ _ _ => True

instance : (w : Write) → Decidable w.Unseparated
  | .upsert _ _ rec => inferInstanceAs (Decidable (Database.Unseparated (identityOf rec)))
  | .delete _ domain collection organizationID recordID =>
    inferInstanceAs
      (Decidable (Database.Unseparated (recordIdentity domain collection organizationID recordID)))
  | .deleteOrg _ _ _ => instDecidableTrue

namespace MemoryDB

variable {db : MemoryDB}

def HoldsUnseparated (db : MemoryDB) : Prop :=
  ∀ key rec, db.records.lookup key = some rec → Unseparated (identityOf rec)

theorem HoldsUnseparated.ownKey (h : db.HoldsUnseparated) (hc : db.Consistent) {d c o r : String}
    (hid : Unseparated (recordIdentity d c o r)) : db.OwnKey (recordIdentity d c o r) := by
  intro rec hrec
  exact recordKey_inj (h _ _ hrec) hid ((hc.kept _ _ hrec).1.trans (recordKey_eq d c o r).symm)

theorem HoldsUnseparated.apart (h : db.HoldsUnseparated) (hc : db.Consistent) (hw : w.Unseparated) :
    w.Apart db := by
  cases w with
  | upsert => exact h.ownKey hc hw
  | delete => exact h.ownKey hc hw
  | deleteOrg => trivial

theorem HoldsUnseparated.exec (h : db.HoldsUnseparated) (hc : db.Consistent) (hw : w.Unseparated) :
    (db.exec w).HoldsUnseparated := by
  intro key rec hrec
  rcases exec_cases hc.ready w with ⟨-, heq⟩ | ⟨now, r, rfl, -, heq⟩ | ⟨d, c, o, r, rfl,
    heq⟩ | ⟨order, o, rfl, heq⟩
  · exact h key rec (heq ▸ hrec)
  · rw [heq, upsertLocked_records, GoMap.lookup_insert_if] at hrec
    split_ifs at hrec
    · obtain rfl := Option.some.inj hrec
      rw [identityOf_savedRecord]
      exact hw
    · exact h key rec hrec
  · rw [heq, deleteLocked_records, GoMap.lookup_erase_if] at hrec
    split_ifs at hrec
    exact h key rec hrec
  · by_cases hblank : trimSpace o = ""
    · rw [heq, deleteOrgLocked, if_pos hblank] at hrec
      exact h key rec hrec
    · rw [heq, deleteOrgLocked_lookup hc order hblank] at hrec
      exact h key rec (Option.filter_eq_some_iff.mp hrec).1

theorem HoldsUnseparated.run (h : db.HoldsUnseparated) (hc : db.Consistent)
    (hwrites : ∀ w ∈ writes, w.Unseparated) :
    ApartRun db writes ∧ (writes.foldl MemoryDB.exec db).HoldsUnseparated := by
  induction writes generalizing db with
  | nil => exact ⟨trivial, h⟩
  | cons w rest ih =>
    have hw := hwrites w List.mem_cons_self
    obtain ⟨hrest, hend⟩ :=
      ih (h.exec hc hw) (hc.exec w) fun v hv => hwrites v (List.mem_cons_of_mem w hv)
    exact ⟨⟨h.apart hc hw, hrest⟩, hend⟩

/-- Writes without the separator are apart, and so is every read without it after them. -/
theorem apart_of_unseparated (h : ∀ w ∈ writes, w.Unseparated) :
    ApartRun {} writes ∧ ∀ d c o r, Unseparated (recordIdentity d c o r) →
      (writes.foldl exec {}).OwnKey (recordIdentity d c o r) := by
  have hempty : ({} : MemoryDB).HoldsUnseparated := fun _ _ hrec => by cases hrec
  obtain ⟨hapart, hend⟩ := hempty.run consistent_empty h
  exact ⟨hapart, fun d c o r hid => hend.ownKey (dataOf_run consistent_empty hapart).1 hid⟩

end MemoryDB

/-! ### Two organizations -/

def note (organizationID recordID text : String) : DomainRecord where
  domain := "crm"
  collection := "notes"
  organizationID := organizationID
  recordID := recordID
  data := [⟨"text", stringValue text⟩]

/-- A note of `acme|eu` is read, and deleted, as one of `acme`. -/
theorem organizations_share_a_key :
    ((({} : MemoryDB).exec (.upsert false 1 (note "acme|eu" "n1" "hello"))).getRecord false "crm"
      "notes" "acme"
      "eu|n1").map (·.map (·.organizationID)) = .ok (some "acme|eu") ∧
    Contents.exec (fun _ => none) (.upsert false 1 (note "acme|eu" "n1" "hello"))
      (recordIdentity "crm" "notes" "acme" "eu|n1") = none ∧
    ((({} : MemoryDB).exec (.upsert false 1 (note "acme|eu" "n1" "hello"))).exec
      (.delete false "crm" "notes" "acme" "eu|n1")).getRecord false "crm" "notes" "acme|eu" "n1" =
        .ok none := by
  decide +kernel

def twoOrganizations : List Write :=
  [.upsert false 1 (note "acme" "n1" "hello"), .upsert false 2 (note "globex" "n1" "bye"),
    .deleteOrg false (.ascendingBy id Function.injective_id) "globex"]

/-- Organizations without a separator in their names are kept apart. -/
theorem notes_kept_apart :
    ((twoOrganizations.foldl MemoryDB.exec {}).getRecord false "crm" "notes" "acme" "n1").map
      (·.map (·.data)) =
      .ok (some (savedData (note "acme" "n1" "hello"))) := by
  obtain ⟨hapart, hget⟩ :=
    MemoryDB.apart_of_unseparated (show ∀ w ∈ twoOrganizations, w.Unseparated by decide +kernel)
  exact (MemoryDB.getRecord_refines_map twoOrganizations hapart "crm" "notes" "acme" "n1"
    (hget _ _ _ _ (by decide +kernel))).trans (by decide +kernel)

end Foundation.Database
