import Foundation.Spec.ProjectionStore

/-! What the client's projection store holds after a history of upserts and deletes:
an invariant that ties the version map, which outlives deletes, to the records, and
from it the contents after every history over a given set of mutations. -/

namespace Foundation.Workbench

variable {ω : Type}

/-- What a mutation makes of its record, `none` for a delete. -/
def ProjectionMutation.content (m : ProjectionMutation ω) : Option (Record ω) :=
  if m.operation = .delete then none else some (withId (m.fields.getD .empty) m.recordId)

/-- An upsert or a delete of the scope, by its fields only. -/
structure Plain (scope : ProjectionScope) (m : ProjectionMutation ω) : Prop where
  within : TenantProjectionStore.inScope scope m = true
  operation : m.operation ≠ .patch
  record : m.record = none

/-- No mutation of the same record has a higher version, nor one that cannot be compared. -/
def Highest (ms : List (ProjectionMutation ω)) (m : ProjectionMutation ω) : Prop :=
  m ∈ ms ∧ ∀ m' ∈ ms, m'.recordId = m.recordId → m'.version.le m.version = true

/-- The contents the mutations call for: each record as its highest-versioned mutation leaves it. -/
def Settles (ms : List (ProjectionMutation ω)) (contents : String → Option (Record ω)) : Prop :=
  ∀ id, ((∀ m ∈ ms, m.recordId ≠ id) ∧ contents id = none) ∨
    ∃ m, Highest ms m ∧ m.recordId = id ∧ contents id = m.content

/-- Two mutations of one record with one version are the same mutation. -/
def Consistent (ms : List (ProjectionMutation ω)) : Prop :=
  ∀ m ∈ ms, ∀ m' ∈ ms, m.recordId = m'.recordId → m.version = m'.version → m = m'

namespace DomainStore

variable {R : Type}

/-- A snapshot that is not marked dirty shows the records. -/
def Fresh (s : DomainStore R) : Prop := s.snapshotDirty = false → s.snapshot.byId = s.byId

theorem getSnapshot_byId {s : DomainStore R} (h : s.Fresh) : s.getSnapshot.byId = s.byId := by
  rw [getSnapshot, rebuildSnapshot]
  split_ifs with hd
  · rfl
  · exact h (by simpa using hd)

theorem emit_byId (s : DomainStore R) : s.emit.byId = s.byId := by
  rw [emit]; split_ifs <;> rfl

theorem emit_fresh (s : DomainStore R) : s.emit.Fresh := by
  intro h
  rw [emit] at h
  split_ifs at h

theorem upsert_byId (getId : R → String) (s : DomainStore R) (r : R) :
    (s.upsert getId r).byId = s.byId.set (getId r) r := emit_byId _

theorem remove_get (s : DomainStore R) (a b : String) :
    (s.remove a).byId.get b = if b = a then none else s.byId.get b := by
  rw [remove]
  split_ifs with hheld hb hb
  · rw [emit_byId, JsMap.get_delete, if_pos hb]
  · rw [emit_byId, JsMap.get_delete, if_neg hb]
  · rw [hb]
    exact Option.not_isSome_iff_eq_none.mp (by simpa [JsMap.has] using hheld)
  · rfl

theorem remove_fresh {s : DomainStore R} (h : s.Fresh) (a : String) : (s.remove a).Fresh := by
  rw [remove]
  split_ifs
  · exact emit_fresh _
  · exact h

theorem closeBatch_byId (s : DomainStore R) : s.closeBatch.byId = s.byId := by
  rw [closeBatch, flushBatch]; split_ifs <;> rfl

theorem closeBatch_fresh {s : DomainStore R} (h : s.Fresh) : s.closeBatch.Fresh := by
  rw [closeBatch, flushBatch]
  split_ifs
  · exact h
  · exact fun hd => absurd hd (by simp)

end DomainStore

theorem defaultGetId_withId (toText : ω → String) (fields : Record ω) (id : String) :
    defaultGetId toText (withId fields id) = id := by
  rw [defaultGetId, withId, JsMap.get_set, if_pos rfl]

namespace TenantProjectionStore

/-- What the store knows of a record after the mutations `ms`: nothing while all of them lie below
the version an unknown record counts as, and the highest of them otherwise. -/
def Knows (ms : List (ProjectionMutation ω)) (s : TenantProjectionStore ω) (id : String) : Prop :=
  ((∀ m ∈ ms, m.recordId = id → m.version.lt (.ofInt (-1)) = true) ∧
      s.versions.get id = none ∧ s.store.byId.get id = none) ∨
    ∃ m, Highest ms m ∧ m.recordId = id ∧ (JsNumber.ofInt (-1)).le m.version = true ∧
      s.versions.get id = some m.version ∧ s.store.byId.get id = m.content

structure Applied (scope : ProjectionScope) (toText : ω → String) (ms : List (ProjectionMutation ω))
    (s : TenantProjectionStore ω) : Prop where
  scope : s.scope = scope
  getId : s.getId = defaultGetId toText
  fresh : s.store.Fresh
  knows : ∀ id, Knows ms s id

variable {scope : ProjectionScope} {toText : ω → String} {ms : List (ProjectionMutation ω)}
  {s : TenantProjectionStore ω} {m : ProjectionMutation ω}

theorem applied_start (scope : ProjectionScope) (toText : ω → String) :
    Applied scope toText [] (createTenantProjectionStore (ω := ω) scope (defaultGetId toText)) where
  scope := rfl
  getId := rfl
  fresh := DomainStore.emit_fresh _
  knows _ := .inl ⟨fun _ h => absurd h List.not_mem_nil, rfl, rfl⟩

/-- An accepted mutation is what the store holds of its record, and no other record is touched. -/
theorem accept_spec (hs : s.getId = defaultGetId toText) (hp : Plain scope m) (id : String) :
    (s.accept m).versions.get id = (if id = m.recordId then some m.version else s.versions.get id) ∧
      (s.accept m).store.byId.get id = if id = m.recordId then m.content
        else s.store.byId.get id := by
  cases hop : m.operation with
  | patch => exact absurd hop hp.operation
  | delete =>
    simp only [accept, hop, ProjectionMutation.content, if_true]
    exact ⟨JsMap.get_set _ _ _ _, DomainStore.remove_get _ _ _⟩
  | upsert =>
    simp only [accept, hop, ProjectionMutation.content, hp.record, Option.getD_none, hs,
      DomainStore.upsert_byId, defaultGetId_withId, reduceCtorEq, if_false]
    exact ⟨JsMap.get_set _ _ _ _, JsMap.get_set _ _ _ _⟩

theorem accept_fresh (h : s.store.Fresh) (m : ProjectionMutation ω) : (s.accept m).store.Fresh := by
  cases hop : m.operation <;> simp only [accept, hop]
  · exact DomainStore.emit_fresh _
  · exact DomainStore.emit_fresh _
  · exact DomainStore.remove_fresh h _

theorem accept_scope (s : TenantProjectionStore ω) (m : ProjectionMutation ω) :
    (s.accept m).scope = s.scope ∧ (s.accept m).getId = s.getId := by
  cases hop : m.operation <;> simp [accept, hop]

theorem Knows.other {id : String} {s' : TenantProjectionStore ω} (h : Knows ms s id)
    (hne : m.recordId ≠ id) (hv : s'.versions.get id = s.versions.get id)
    (hr : s'.store.byId.get id = s.store.byId.get id) :
    Knows (ms ++ [m]) s' id := by
  rcases h with ⟨hlow, hnv, hnr⟩ | ⟨top, ⟨hmem, htop⟩, hid, hge, htv, htr⟩
  · refine .inl ⟨fun x hx hxid => ?_, hv.trans hnv, hr.trans hnr⟩
    rcases List.mem_append.mp hx with hx | hx
    · exact hlow x hx hxid
    · exact absurd (List.mem_singleton.mp hx ▸ hxid) hne
  · refine .inr ⟨top, ⟨List.mem_append_left _ hmem, fun x hx hxid => ?_⟩, hid, hge, hv.trans htv,
      hr.trans htr⟩
    rcases List.mem_append.mp hx with hx | hx
    · exact htop x hx hxid
    · exact absurd ((List.mem_singleton.mp hx ▸ hxid).trans hid) hne

/-- A mutation that is not below the version on file becomes the highest of its record. -/
theorem Knows.highest (h : Knows ms s m.recordId) (hnan : m.version ≠ .nan)
    (hlt : m.version.lt ((s.versions.get m.recordId).getD (.ofInt (-1))) = false) :
    Highest (ms ++ [m]) m ∧ (JsNumber.ofInt (-1)).le m.version = true := by
  rcases h with ⟨hlow, hnv, -⟩ | ⟨top, ⟨-, htop⟩, hid, hge, htv, -⟩
  · rw [hnv, Option.getD_none] at hlt
    have hge := JsNumber.le_of_not_lt hnan (by simp [JsNumber.ofInt]) hlt
    refine ⟨⟨by simp, fun x hx hxid => ?_⟩, hge⟩
    rcases List.mem_append.mp hx with hx | hx
    · exact JsNumber.le_trans (JsNumber.le_of_lt (hlow x hx hxid)) hge
    · rw [List.mem_singleton.mp hx]
      exact JsNumber.le_refl hnan
  · rw [htv, Option.getD_some] at hlt
    have hle := JsNumber.le_of_not_lt hnan (JsNumber.le_ne_nan hge).2 hlt
    refine ⟨⟨by simp, fun x hx hxid => ?_⟩, JsNumber.le_trans hge hle⟩
    rcases List.mem_append.mp hx with hx | hx
    · exact JsNumber.le_trans (htop x hx (hxid.trans hid.symm)) hle
    · rw [List.mem_singleton.mp hx]
      exact JsNumber.le_refl hnan

/-- A mutation below the version on file changes nothing the store has to know. -/
theorem Knows.rejected (h : Knows ms s m.recordId)
    (hlt : m.version.lt ((s.versions.get m.recordId).getD (.ofInt (-1))) = true) :
    Knows (ms ++ [m]) s m.recordId := by
  rcases h with ⟨hlow, hnv, hnr⟩ | ⟨top, ⟨hmem, htop⟩, hid, hge, htv, htr⟩
  · refine .inl ⟨fun x hx hxid => ?_, hnv, hnr⟩
    rcases List.mem_append.mp hx with hx | hx
    · exact hlow x hx hxid
    · rw [List.mem_singleton.mp hx]
      rwa [hnv] at hlt
  · refine .inr ⟨top, ⟨List.mem_append_left _ hmem, fun x hx hxid => ?_⟩, hid, hge, htv, htr⟩
    rcases List.mem_append.mp hx with hx | hx
    · exact htop x hx hxid
    · rw [List.mem_singleton.mp hx]
      rw [htv] at hlt
      exact JsNumber.le_of_lt hlt

theorem Applied.applyOne (h : Applied scope toText ms s) (hp : Plain scope m)
    (hnan : m.version ≠ .nan) :
    Applied scope toText (ms ++ [m]) (s.applyOne m).1 := by
  have hscoped : inScope s.scope m = true := h.scope ▸ hp.within
  rw [TenantProjectionStore.applyOne, hscoped]
  by_cases hlt : m.version.lt ((s.versions.get m.recordId).getD (.ofInt (-1))) = true
  · simp only [Bool.not_true, Bool.false_eq_true, if_false, hlt, if_true]
    refine ⟨h.scope, h.getId, h.fresh, fun id => ?_⟩
    by_cases hid : m.recordId = id
    · subst hid
      exact (h.knows _).rejected hlt
    · exact (h.knows id).other hid rfl rfl
  · simp only [Bool.not_true, Bool.false_eq_true, if_false, hlt]
    obtain ⟨hscope, hgetId⟩ := accept_scope s m
    refine ⟨hscope.trans h.scope, hgetId.trans h.getId, accept_fresh h.fresh m, fun id => ?_⟩
    obtain ⟨hv, hr⟩ := accept_spec h.getId hp id
    by_cases hid : m.recordId = id
    · obtain ⟨htop, hge⟩ := (h.knows m.recordId).highest hnan (by simpa using hlt)
      rw [if_pos hid.symm] at hv hr
      exact .inr ⟨m, htop, hid, hge, hv, hr⟩
    · rw [if_neg (Ne.symm hid)] at hv hr
      exact (h.knows id).other hid hv hr

theorem Applied.congr {s' : TenantProjectionStore ω} (h : Applied scope toText ms s)
    (hscope : s'.scope = s.scope) (hgetId : s'.getId = s.getId)
    (hversions : s'.versions = s.versions) (hbyId : s'.store.byId = s.store.byId)
    (hfresh : s'.store.Fresh) : Applied scope toText ms s' where
  scope := hscope.trans h.scope
  getId := hgetId.trans h.getId
  fresh := hfresh
  knows id := by
    have := h.knows id
    rwa [Knows, ← hversions, ← hbyId] at this

theorem Applied.applyNexts {new : List (ProjectionMutation ω)} (hp : ∀ m ∈ new, Plain scope m)
    (hnan : ∀ m ∈ new, m.version ≠ .nan) :
    ∀ {ms : List (ProjectionMutation ω)} {acc : TenantProjectionStore ω × ProjectionApplyResult},
      Applied scope toText ms acc.1 →
        Applied scope toText (ms ++ new) (new.foldl applyNext acc).1 := by
  induction new with
  | nil => intro ms acc h; simpa using h
  | cons m new ih =>
    intro ms acc h
    have hstep : Applied scope toText (ms ++ [m]) (applyNext acc m).1 :=
      h.applyOne (hp m List.mem_cons_self) (hnan m List.mem_cons_self)
    have :=
      ih (fun x hx => hp x (List.mem_cons_of_mem _ hx))
      (fun x hx => hnan x (List.mem_cons_of_mem _ hx)) hstep
    simpa using this

theorem Applied.applyMany {new : List (ProjectionMutation ω)} (h : Applied scope toText ms s)
    (hp : ∀ m ∈ new, Plain scope m) (hnan : ∀ m ∈ new, m.version ≠ .nan) :
    Applied scope toText (ms ++ new) (s.applyMany new).1 := by
  have hopen : Applied scope toText ms { s with store := s.store.openBatch } :=
    h.congr rfl rfl rfl rfl h.fresh
  have hloop := @Applied.applyNexts _ _ _ _ hp hnan _ (_, ⟨0, 0, none, none⟩) hopen
  exact hloop.congr rfl rfl rfl (DomainStore.closeBatch_byId _)
    (DomainStore.closeBatch_fresh hloop.fresh)

end TenantProjectionStore

open TenantProjectionStore

variable {scope : ProjectionScope} {toText : ω → String} {ms : List (ProjectionMutation ω)}

theorem applied_runAll {calls : List (Call ω)}
    (hp : ∀ m ∈ calls.flatMap Call.mutations, Plain scope m)
    (hnan : ∀ m ∈ calls.flatMap Call.mutations, m.version ≠ .nan) :
    ∀ {ms : List (ProjectionMutation ω)} {s : TenantProjectionStore ω}, Applied scope toText ms s →
      Applied scope toText (ms ++ calls.flatMap Call.mutations) (Call.runAll s calls) := by
  induction calls with
  | nil => intro ms s h; simpa [Call.runAll] using h
  | cons c calls ih =>
    intro ms s h
    rw [List.flatMap_cons] at hp hnan ⊢
    have hstep : Applied scope toText (ms ++ c.mutations) (c.run s) := by
      cases c with
      | apply m =>
        exact h.applyOne (hp m (by simp [Call.mutations])) (hnan m (by simp [Call.mutations]))
      | applyMany new =>
        exact h.applyMany (fun m hm => hp m (List.mem_append_left _ hm))
          (fun m hm => hnan m (List.mem_append_left _ hm))
    rw [← List.append_assoc]
    exact ih (fun m hm => hp m (List.mem_append_right _ hm))
      (fun m hm => hnan m (List.mem_append_right _ hm)) hstep

/-- The records a reader of the store sees, through `getSnapshot` as through `get`. -/
def contents (s : TenantProjectionStore ω) (id : String) : Option (Record ω) :=
  s.store.getSnapshot.byId.get id

theorem Highest.eq {m m' : ProjectionMutation ω} (hc : Consistent ms) (h : Highest ms m)
    (h' : Highest ms m') (hid : m.recordId = m'.recordId) : m = m' :=
  hc m h.1 m' h'.1 hid (JsNumber.le_antisymm (h'.2 m h.1 hid) (h.2 m' h'.1 hid.symm))

theorem Highest.congr {ms' : List (ProjectionMutation ω)} (hmem : ∀ m, m ∈ ms ↔ m ∈ ms')
    {m : ProjectionMutation ω} (h : Highest ms m) : Highest ms' m :=
  ⟨(hmem m).mp h.1, fun x hx => h.2 x ((hmem x).mpr hx)⟩

/-- Versions that are numbers have a highest one among the mutations of a record. -/
theorem exists_highest (hnan : ∀ m ∈ ms, m.version ≠ .nan) {x : ProjectionMutation ω}
    (hx : x ∈ ms) : ∃ m, Highest ms m ∧ m.recordId = x.recordId := by
  induction ms generalizing x with
  | nil => cases hx
  | cons a l ih =>
    have hself := JsNumber.le_refl (hnan a List.mem_cons_self)
    by_cases hother : ∃ y ∈ l, y.recordId = x.recordId
    · obtain ⟨y, hy, hyx⟩ := hother
      obtain ⟨top, ⟨hmem, htop⟩, htid⟩ := ih (fun m hm => hnan m (List.mem_cons_of_mem _ hm)) hy
      by_cases ha : a.recordId = top.recordId ∧ top.version.lt a.version = true
      · refine ⟨a, ⟨List.mem_cons_self, fun m hm hid => ?_⟩, ha.1.trans (htid.trans hyx)⟩
        rcases List.mem_cons.mp hm with rfl | hm
        · exact hself
        · exact JsNumber.le_trans (htop m hm (hid.trans ha.1)) (JsNumber.le_of_lt ha.2)
      · refine ⟨top, ⟨List.mem_cons_of_mem _ hmem, fun m hm hid => ?_⟩, htid.trans hyx⟩
        rcases List.mem_cons.mp hm with rfl | hm
        · refine JsNumber.le_of_not_lt (hnan top (List.mem_cons_of_mem _ hmem))
            (hnan m List.mem_cons_self) ?_
          exact Bool.eq_false_iff.mpr fun hlt => ha ⟨hid, hlt⟩
        · exact htop m hm hid
    · have hxa : x = a := (List.mem_cons.mp hx).resolve_right fun h => hother ⟨x, h, rfl⟩
      refine ⟨a, ⟨List.mem_cons_self, fun m hm hid => ?_⟩, by rw [hxa]⟩
      rcases List.mem_cons.mp hm with rfl | hm
      · exact hself
      · exact absurd ⟨m, hm, by rw [hid, hxa]⟩ hother

theorem Settles.unique {c c' : String → Option (Record ω)} (hc : Consistent ms) (h : Settles ms c)
    (h' : Settles ms c') : c = c' := by
  funext id
  rcases h id with ⟨hno, hn⟩ | ⟨m, hm, hid, he⟩ <;> rcases h' id with ⟨hno', hn'⟩ | ⟨m',
    hm', hid', he'⟩
  · rw [hn, hn']
  · exact absurd hid' (hno m' hm'.1)
  · exact absurd hid (hno' m hm.1)
  · rw [he, he', hm.eq hc hm' (hid.trans hid'.symm)]

/-- What the store knows after a history over `ms`, in terms of `ms`. -/
theorem knows_after (hplain : ∀ m ∈ ms, Plain scope m) (hnan : ∀ m ∈ ms, m.version ≠ .nan)
    {calls : List (Call ω)} (hmem : ∀ m, m ∈ calls.flatMap Call.mutations ↔ m ∈ ms) (id : String) :
    let final :=
      contents (Call.runAll (createTenantProjectionStore scope (defaultGetId toText)) calls)
    ((∀ m ∈ ms, m.recordId = id → m.version.lt (.ofInt (-1)) = true) ∧ final id = none) ∨
      ∃ m, Highest ms m ∧ m.recordId = id ∧ (JsNumber.ofInt (-1)).le m.version = true ∧
        final id = m.content := by
  have happlied :=
    applied_runAll (fun m hm => hplain m ((hmem m).mp hm)) (fun m hm => hnan m ((hmem m).mp hm))
    (applied_start scope toText)
  rw [List.nil_append] at happlied
  simp only [contents, DomainStore.getSnapshot_byId happlied.fresh]
  rcases happlied.knows id with ⟨hlow, -, hn⟩ | ⟨m, hm, hid, hge, -, he⟩
  · exact .inl ⟨fun m hm => hlow m ((hmem m).mpr hm), hn⟩
  · exact .inr ⟨m, hm.congr hmem, hid, hge, he⟩

theorem settles_after (hplain : ∀ m ∈ ms, Plain scope m) (hnan : ∀ m ∈ ms, m.version ≠ .nan)
    (hlow : ∀ m, Highest ms m → m.operation = .delete ∨ (JsNumber.ofInt (-1)).le m.version = true)
    {calls : List (Call ω)} (hmem : ∀ m, m ∈ calls.flatMap Call.mutations ↔ m ∈ ms) :
    Settles ms
      (contents (Call.runAll (createTenantProjectionStore scope (defaultGetId toText)) calls)) := by
  intro id
  rcases knows_after hplain hnan hmem id with ⟨hbelow, hn⟩ | ⟨m, hm, hid, -, he⟩
  · by_cases hnone : ∀ m ∈ ms, m.recordId ≠ id
    · exact .inl ⟨hnone, hn⟩
    · push Not at hnone
      obtain ⟨x, hx, hxid⟩ := hnone
      obtain ⟨m, hm, hid⟩ := exists_highest hnan hx
      -- all versions of the record were refused, so only a delete can be the highest
      have hdelete : m.operation = .delete := (hlow m hm).resolve_right fun hge => by
        rw [JsNumber.not_le_of_lt (hbelow m hm.1 (hid.trans hxid))] at hge
        cases hge
      exact .inr ⟨m, hm, hid.trans hxid, by rw [hn, ProjectionMutation.content, if_pos hdelete]⟩
  · exact .inr ⟨m, hm, hid, he⟩

/-- The contents of the store after any history over the mutations `ms` are those the mutations call
for, whatever the order, the batching and the repetitions, exactly when every version is a number
and no upsert below version `-1`, which an unknown record counts as, is the highest of its record.
-/
theorem histories_converge (scope : ProjectionScope) (toText : ω → String)
    (ms : List (ProjectionMutation ω)) (hplain : ∀ m ∈ ms, Plain scope m) (hc : Consistent ms) :
    (∃ settled, Settles ms settled ∧ ∀ calls : List (Call ω),
      (∀ m, m ∈ calls.flatMap Call.mutations ↔ m ∈ ms) →
        contents (Call.runAll (createTenantProjectionStore scope (defaultGetId toText)) calls) =
          settled) ↔
      (∀ m ∈ ms, m.version ≠ .nan) ∧
        ∀ m, Highest ms m → m.operation = .delete ∨ (JsNumber.ofInt (-1)).le m.version = true := by
  have hone : ∀ m, m ∈ [Call.applyMany ms].flatMap Call.mutations ↔ m ∈ ms := by
    simp [Call.mutations]
  constructor
  · rintro ⟨settled, hsettles, hall⟩
    have hnan : ∀ m ∈ ms, m.version ≠ .nan := fun m hm => by
      rcases hsettles m.recordId with ⟨hno, -⟩ | ⟨top, htop, hid, -⟩
      · exact absurd rfl (hno m hm)
      · exact (JsNumber.le_ne_nan (htop.2 m hm hid.symm)).1
    refine ⟨hnan, fun m hm => ?_⟩
    have hfinal := hall _ hone
    rcases knows_after hplain hnan hone m.recordId with ⟨-, hn⟩ | ⟨top, htop, hid, hge, -⟩
    · left
      rw [hfinal] at hn
      rcases hsettles m.recordId with ⟨hno, -⟩ | ⟨top, htop, hid, he⟩
      · exact absurd rfl (hno m hm.1)
      · rw [htop.eq hc hm hid, hn, ProjectionMutation.content] at he
        by_contra hop
        rw [if_neg hop] at he
        cases he
    · right
      rwa [htop.eq hc hm hid] at hge
  · rintro ⟨hnan, hlow⟩
    have hsettles := @settles_after _ _ toText _ hplain hnan hlow _ hone
    exact ⟨_, hsettles, fun calls hmem => (settles_after hplain hnan hlow hmem).unique hc hsettles⟩

def ordersScope : ProjectionScope := ⟨"t", "shop", "orders"⟩

def orderMutation (operation : ProjectionMutationOperation) (id : String) (version : ℤ) :
    ProjectionMutation Unit :=
  ⟨operation, "t", "shop", "orders", id, .ofInt version, none, none, none⟩

theorem orderMutation_plain {operation : ProjectionMutationOperation} (h : operation ≠ .patch)
    (id : String) (version : ℤ) : Plain ordersScope (orderMutation operation id version) :=
  ⟨rfl, h, rfl⟩

/-- An order that is deleted at version 3, with its upsert at version 2 in any place. -/
theorem deleted_order_converges :
    let ms := [orderMutation .upsert "o1" 2, orderMutation .delete "o1" 3]
    ∃ settled, Settles ms settled ∧ ∀ calls : List (Call Unit),
      (∀ m, m ∈ calls.flatMap Call.mutations ↔ m ∈ ms) →
        contents (Call.runAll (createTenantProjectionStore ordersScope (defaultGetId fun _ => ""))
          calls) = settled := by
  refine (histories_converge ordersScope _ _ ?_ ?_).mpr ⟨?_, ?_⟩
  · simp only [List.mem_cons, List.not_mem_nil, or_false, forall_eq_or_imp, forall_eq]
    exact ⟨orderMutation_plain (by decide) _ _, orderMutation_plain (by decide) _ _⟩
  · intro m hm m' hm' _ hv
    simp only [List.mem_cons, List.not_mem_nil, or_false] at hm hm'
    rcases hm with rfl | rfl <;> rcases hm' with rfl | rfl <;>
      first | rfl | exact absurd hv (by decide +kernel)
  · simp [orderMutation, JsNumber.ofInt]
  · rintro m ⟨hm, -⟩
    simp only [List.mem_cons, List.not_mem_nil, or_false] at hm
    rcases hm with rfl | rfl
    · exact .inr (by decide +kernel)
    · exact .inl rfl

/-- An upsert at version `-2` is refused by the empty store, so the record it calls for is missing.
-/
theorem low_version_refused :
    let ms := [orderMutation .upsert "o1" (-2)]
    (∀ m ∈ ms, Plain ordersScope m) ∧ Consistent ms ∧
      ¬Settles ms (contents (Call.runAll
        (createTenantProjectionStore ordersScope (defaultGetId fun _ => "")) [Call.applyMany ms])) := by
  refine ⟨by simpa using orderMutation_plain (by decide) _ _, by simp [Consistent], fun h => ?_⟩
  rcases h "o1" with ⟨hno, -⟩ | ⟨m, ⟨hm, -⟩, -, he⟩
  · exact hno _ List.mem_cons_self rfl
  · rw [List.mem_singleton.mp hm] at he
    exact absurd (congrArg Option.isSome he) (by decide +kernel)

end Foundation.Workbench
