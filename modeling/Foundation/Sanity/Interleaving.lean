import Foundation.Sanity.Fence
import Foundation.Sanity.Store

/-! The invariant of interleaved calls. On every key the call with the highest version
carries what the base holds, once no call on the key is between its base access and its
reservation; and when it has returned, the hot plane holds it too. -/

namespace Foundation.Hermes.Interleaving

open Go ProjectedRuntimeStore

def Request.target (request : Request) : RecordIdentity := identityOf request.record

def Request.key (request : Request) : String := keyOf request.record

/-- What a call leaves under its key. -/
def carried (kind : Kind) (rec : DomainRecord) : Option DomainRecord :=
  if kind = .delete then none else some rec

def Phase.Stamped (phase : Phase) (rec : DomainRecord) (version : ℕ) : Prop :=
  phase = .reserved rec version ∨ phase = .returned rec version

/-- The record a call has in hand is the one its request is about. -/
structure Holds (request : Request) (rec : DomainRecord) : Prop where
  target : identityOf rec = request.target
  stored : request.kind ≠ .delete → Stored rec

structure InScope (spec : ProjectionSpec) (request : Request) : Prop where
  domain : trimSpace request.record.domain = spec.domain
  collection : trimSpace request.record.collection = spec.collection
  organizationID : trimSpace request.record.organizationID ≠ ""

variable {ι : Type} [DecidableEq ι] {requests : ι → Request} {v0 : ℕ} {s s' : Shared ι}

/-- No call on the target of `i` has a version above `version`. -/
def Latest (requests : ι → Request) (s : Shared ι) (i : ι) (version : ℕ) : Prop :=
  ∀ j rec v, (s.phase j).Stamped rec v → (requests j).target = (requests i).target → v ≤ version

/-- No call on the target is between its base access and its reservation. -/
def Quiet (requests : ι → Request) (s : Shared ι) (target : RecordIdentity) : Prop :=
  ∀ j rec, s.phase j = .holding rec → (requests j).target ≠ target

structure Inv (requests : ι → Request) (v0 : ℕ) (s : Shared ι) : Prop where
  scope : ∀ i, InScope s.part.spec.toProjectionSpec (requests i)
  fenced : s.part.Fenced "state" v0
  started : v0 ≤ s.version
  stamped : ∀ i rec v, (s.phase i).Stamped rec v → v0 < v ∧ v ≤ s.version
  distinct : ∀ i j rec rec' v, (s.phase i).Stamped rec v → (s.phase j).Stamped rec' v → i = j
  unknown : ∀ v label rec, (s.version < v ∨ ∃ i r, s.phase i = .reserved r v) →
    sourceID label rec v ∉ s.part.applied
  fence_le : s.part.fence "state" ≤ v0 ∨ ∃ j rec v, s.phase j = .returned rec v ∧
    s.part.fence "state" ≤ v
  held : ∀ i rec, (s.phase i = .holding rec ∨ ∃ v, (s.phase i).Stamped rec v) →
    Holds (requests i) rec
  base : ∀ i rec v, (s.phase i).Stamped rec v → Latest requests s i v →
    Quiet requests s (requests i).target →
    s.base.records.lookup (requests i).target = carried (requests i).kind rec
  hot : ∀ i rec v, s.phase i = .returned rec v → (requests i).target.recordID ≠ "" →
    Latest requests s i v →
    (s.part.idle.entry (requests i).key).map (·.record) = carried (requests i).kind rec ∧
      v ≤ s.part.fence "state"

/-! ### The base access -/

theorem access_cases (now : Time) (pos : 0 < now) (db : BaseStore) (request : Request) :
    ((access now pos db request).1 = .missed ∧ (access now pos db request).2 = db) ∨
      ∃ rec, (access now pos db request).1 = .holding rec ∧ Holds request rec ∧
        ∀ id, id ≠ request.target → (access now pos db request).2.records.lookup id =
          db.records.lookup id := by
  unfold access
  cases hk : request.kind with
  | upsert =>
    dsimp only
    cases hb : db.upsertRecord now pos request.record with
    | error e => exact .inl ⟨rfl, rfl⟩
    | ok r =>
      obtain ⟨saved, db'⟩ := r
      obtain ⟨hsaved, hdb⟩ := upsertRecord_ok hb
      have hid : identityOf saved = request.target := hsaved ▸ BaseStore.identityOf_saved _ _ _
      refine .inr ⟨saved, rfl, ⟨hid, fun _ => ?_⟩, fun id hne => ?_⟩
      · refine (db'.stored (identityOf request.record) saved ?_).2
        rw [hdb, GoMap.lookup_insert_if, if_pos rfl]
      · dsimp only
        rw [hdb, GoMap.lookup_insert_if]
        exact if_neg hne
  | delete =>
    refine .inr ⟨request.record, rfl, ⟨rfl, fun hne => absurd hk hne⟩, fun id hne => ?_⟩
    dsimp only
    rw [deleteBase_lookup]
    exact if_neg hne
  | read =>
    dsimp only
    cases hg : db.get request.record.domain request.record.collection request.record.organizationID
      request.record.recordID with
    | none => exact .inl ⟨rfl, rfl⟩
    | some rec =>
      obtain ⟨hid, hst⟩ := db.stored _ _ hg
      exact .inr ⟨rec, rfl, ⟨hid, fun _ => hst⟩, fun _ _ => rfl⟩

theorem update_phase {phase : ι → Phase} {i j : ι} {next : Phase} (h : j ≠ i) :
    Function.update phase i next j = phase j := Function.update_of_ne h _ _

variable {rec : DomainRecord} {v : ℕ} {i : ι} {version : ℕ}

theorem not_stamped_ready : ¬ Phase.ready.Stamped rec v := by
  rintro (h | h) <;> cases h

theorem not_stamped_holding {rec r : DomainRecord} : ¬ (Phase.holding r).Stamped rec v := by
  rintro (h | h) <;> cases h

theorem not_stamped_missed : ¬ Phase.missed.Stamped rec v := by
  rintro (h | h) <;> cases h

theorem Inv.access {now : Time} {pos : 0 < now} (h : Inv requests v0 s)
    (hready : s.phase i = .ready) :
    Inv requests v0 { s with
      base := (Interleaving.access now pos s.base (requests i)).2
      phase := Function.update s.phase i (Interleaving.access now pos s.base (requests i)).1 } := by
  -- the new phase carries no version, so the stamped calls are the ones before
  have hnew : ∀ rec v, ¬ (Interleaving.access now pos s.base (requests i)).1.Stamped rec v := by
    intro rec v
    rcases access_cases now pos s.base (requests i) with ⟨hm, -⟩ | ⟨r, hr, -⟩
    · rw [hm]
      exact not_stamped_missed
    · rw [hr]
      exact not_stamped_holding
  have hst : ∀ j rec v,
      (Function.update s.phase i (Interleaving.access now pos s.base (requests i)).1 j).Stamped
      rec v ↔ (s.phase j).Stamped rec v := by
    intro j rec v
    by_cases hj : j = i
    · subst hj
      rw [Function.update_self, hready]
      exact iff_of_false (hnew rec v) not_stamped_ready
    · rw [update_phase hj]
  have hret : ∀ j rec v,
      Function.update s.phase i (Interleaving.access now pos s.base (requests i)).1 j =
      .returned rec v → s.phase j = .returned rec v := by
    intro j rec v hj
    by_cases hi : j = i
    · subst hi
      rw [Function.update_self] at hj
      exact absurd (.inr hj) (hnew rec v)
    · rwa [update_phase hi] at hj
  have hlatest : ∀ j v, Latest requests { s with
      base := (Interleaving.access now pos s.base (requests i)).2
      phase := Function.update s.phase i (Interleaving.access now pos s.base (requests i)).1 } j v →
      Latest requests s j v := fun j v hl k rec w hk ht => hl k rec w ((hst k rec w).mpr hk) ht
  refine ⟨h.scope, h.fenced, h.started, fun j rec v hj => h.stamped j rec v ((hst j rec v).mp hj),
    fun j k rec rec' v hj hk => h.distinct j k rec rec' v ((hst j rec v).mp hj)
      ((hst k rec' v).mp hk),
    fun v label rec hv => h.unknown v label rec ?_, ?_, fun j rec hj => ?_,
    fun j rec v hj hl hq => ?_,
    fun j rec v hj hid hl => h.hot j rec v (hret j rec v hj) hid (hlatest j v hl)⟩
  · refine hv.imp_right fun ⟨k, r, hk⟩ => ⟨k, r, ?_⟩
    by_cases hi : k = i
    · subst hi
      dsimp only at hk
      rw [Function.update_self] at hk
      exact absurd (.inl hk) (hnew r v)
    · dsimp only at hk
      rwa [update_phase hi] at hk
  · refine h.fence_le.imp_right fun ⟨k, rec, v, hk, hle⟩ => ⟨k, rec, v, ?_, hle⟩
    have hi : k ≠ i := by
      rintro rfl
      rw [hready] at hk
      cases hk
    exact (update_phase hi).trans hk
  · by_cases hi : j = i
    · subst hi
      dsimp only at hj
      rw [Function.update_self] at hj
      rcases access_cases now pos s.base (requests j) with ⟨hm, -⟩ | ⟨r, hr, hh, -⟩
      · rw [hm] at hj
        rcases hj with hj | ⟨v, hj⟩
        · cases hj
        · exact absurd hj not_stamped_missed
      · rw [hr] at hj
        rcases hj with hj | ⟨v, hj⟩
        · cases hj
          exact hh
        · exact absurd hj not_stamped_holding
    · dsimp only at hj
      rw [update_phase hi] at hj
      exact h.held j rec hj
  · have hold : Quiet requests s (requests j).target := fun k r hk ht => by
      have hi : k ≠ i := by
        rintro rfl
        rw [hready] at hk
        cases hk
      exact hq k r ((update_phase hi).trans hk) ht
    have hb := h.base j rec v ((hst j rec v).mp hj) (hlatest j v hl) hold
    rcases access_cases now pos s.base (requests i) with ⟨-, hdb⟩ | ⟨r, hr, -, hdb⟩
    · dsimp only
      rw [hdb]
      exact hb
    · -- a call that now holds a record of the target would disturb the quiet
      have hne : (requests j).target ≠ (requests i).target := fun ht =>
        hq i r (by dsimp only; rw [Function.update_self, hr]) ht.symm
      exact (hdb _ hne).trans hb

/-! ### The reservation -/

/-- A call may reserve while it carries what the base holds or another call on its record
still has to. -/
def Current (requests : ι → Request) (s : Shared ι) (i : ι) (rec : DomainRecord) : Prop :=
  s.base.records.lookup (requests i).target = carried (requests i).kind rec ∨
    ∃ j r, j ≠ i ∧ s.phase j = .holding r ∧ (requests j).target = (requests i).target

theorem stamped_reserved {rec rec' : DomainRecord} {v v' : ℕ}
    (h : (Phase.reserved rec v).Stamped rec' v') :
    rec' = rec ∧ v' = v := by
  rcases h with h | h <;> cases h
  exact ⟨rfl, rfl⟩

theorem Inv.reserve (h : Inv requests v0 s) (hi : s.phase i = .holding rec)
    (hcur : Current requests s i rec) :
    Inv requests v0 { s with
      version := s.version + 1
      phase := Function.update s.phase i (.reserved rec (s.version + 1)) } := by
  have hst : ∀ {j r v}, (Function.update s.phase i (.reserved rec (s.version + 1)) j).Stamped r v →
      (j = i ∧ r = rec ∧ v = s.version + 1) ∨ (j ≠ i ∧ (s.phase j).Stamped r v) := by
    intro j r v hj
    by_cases hji : j = i
    · subst hji
      rw [Function.update_self] at hj
      exact .inl ⟨rfl, stamped_reserved hj⟩
    · rw [update_phase hji] at hj
      exact .inr ⟨hji, hj⟩
  have hback : ∀ {j r v}, (s.phase j).Stamped r v →
      (Function.update s.phase i (.reserved rec (s.version + 1)) j).Stamped r v := by
    intro j r v hj
    have hji : j ≠ i := by
      rintro rfl
      rw [hi] at hj
      exact not_stamped_holding hj
    rw [update_phase hji]
    exact hj
  have hself : (Function.update s.phase i (.reserved rec (s.version + 1)) i).Stamped rec
      (s.version + 1) := by
    rw [Function.update_self]
    exact .inl rfl
  -- a call that is the latest on its record is the reserving one or concerns another record
  have hother : ∀ {j r v}, (s.phase j).Stamped r v → Latest requests { s with
      version := s.version + 1
      phase := Function.update s.phase i (.reserved rec (s.version + 1)) } j v →
      (requests i).target ≠ (requests j).target ∧ Latest requests s j v := by
    intro j r v hj hl
    refine ⟨fun ht => ?_, fun k q w hk ht => hl k q w (hback hk) ht⟩
    have h1 := hl i rec (s.version + 1) hself ht
    have h2 := (h.stamped j r v hj).2
    omega
  refine ⟨h.scope, h.fenced, h.started.trans (Nat.le_succ _), fun j r v hj => ?_,
    fun j k r r' v hj hk => ?_,
    fun v label r hv => h.unknown v label r ?_, ?_, fun j r hj => ?_, fun j r v hj hl hq => ?_,
    fun j r v hj hid hl => ?_⟩
  · rcases hst hj with ⟨-, -, rfl⟩ | ⟨-, hj⟩
    · exact ⟨Nat.lt_succ_of_le h.started, le_rfl⟩
    · exact ⟨(h.stamped j r v hj).1, (h.stamped j r v hj).2.trans (Nat.le_succ _)⟩
  · rcases hst hj with ⟨hji, -, hv⟩ | ⟨-, hold⟩ <;> rcases hst hk with ⟨hki, -, hw⟩ | ⟨-, hold'⟩
    · rw [hji, hki]
    · have := (h.stamped k r' v hold').2
      omega
    · have := (h.stamped j r v hold).2
      omega
    · exact h.distinct j k r r' v hold hold'
  · rcases hv with hv | ⟨k, q, hk⟩
    · exact .inl (Nat.lt_of_succ_lt hv)
    · rcases hst (.inl hk) with ⟨-, -, rfl⟩ | ⟨hki, -⟩
      · exact .inl (Nat.lt_succ_self _)
      · dsimp only at hk
        rw [update_phase hki] at hk
        exact .inr ⟨k, q, hk⟩
  · refine h.fence_le.imp_right fun ⟨k, q, v, hk, hle⟩ => ⟨k, q, v, ?_, hle⟩
    have hki : k ≠ i := by
      rintro rfl
      rw [hi] at hk
      cases hk
    exact (update_phase hki).trans hk
  · rcases hj with hj | ⟨v, hj⟩
    · have hji : j ≠ i := by
        rintro rfl
        dsimp only at hj
        rw [Function.update_self] at hj
        cases hj
      exact h.held j r (.inl ((update_phase hji).symm.trans hj))
    · rcases hst hj with ⟨rfl, rfl, -⟩ | ⟨-, hj⟩
      · exact h.held j r (.inl hi)
      · exact h.held j r (.inr ⟨v, hj⟩)
  · have hkeep : ∀ k q, k ≠ i → s.phase k = .holding q →
        Function.update s.phase i (.reserved rec (s.version + 1)) k = .holding q :=
          fun k q hki hk =>
      (update_phase hki).trans hk
    rcases hst hj with ⟨rfl, rfl, -⟩ | ⟨-, hj⟩
    · rcases hcur with hbase | ⟨k, q, hki, hk, ht⟩
      · exact hbase
      · exact absurd ht (hq k q (hkeep k q hki hk))
    · obtain ⟨hne, hlatest⟩ := hother hj hl
      refine h.base j r v hj hlatest fun k q hk ht => ?_
      by_cases hki : k = i
      · exact hne (hki ▸ ht)
      · exact hq k q (hkeep k q hki hk) ht
  · have hji : j ≠ i := by
      rintro rfl
      dsimp only at hj
      rw [Function.update_self] at hj
      cases hj
    dsimp only at hj
    rw [update_phase hji] at hj
    exact h.hot j r v hj hid (hother (.inr hj) hl).2

/-! ### The hot apply -/

/-- A call's event takes effect, or a call on its record has a later version. -/
def Admitted (requests : ι → Request) (s : Shared ι) (i : ι) (rec : DomainRecord) (version : ℕ)
    (env : Env) :
    Prop :=
  (env.ctxDone 0 = false ∧ env.ctxDone 1 = false ∧ s.part.fence "state" < version ∧
      ((requests i).kind ≠ .delete → s.part.idle.HasRoom rec)) ∨
    ∃ j r v, (s.phase j).Stamped r v ∧ (requests j).target = (requests i).target ∧ version < v

@[simp] theorem event_record (kind : Kind) (rec : DomainRecord) (version : ℕ) :
    (event kind rec version).record = rec := by
  unfold event
  split_ifs <;> rfl

@[simp] theorem event_version (kind : Kind) (rec : DomainRecord) (version : ℕ) :
    (event kind rec version).version = version := by
  unfold event
  split_ifs <;> rfl

theorem event_source (kind : Kind) (rec : DomainRecord) (version : ℕ) :
    ∃ label, trimSpace (event kind rec version).sourceID = sourceID label rec version := by
  unfold event
  split_ifs
  · exact ⟨"delete", trimSpace_sourceID _ _ _⟩
  · exact ⟨"upsert", trimSpace_sourceID _ _ _⟩

theorem event_sent (kind : Kind) (rec : DomainRecord) (h : 0 < version) :
    Partition.Sent "state" (event kind rec version) := by
  obtain ⟨label, hsource⟩ := event_source kind rec version
  refine ⟨by rw [event_version]; exact h, ?_, ?_⟩ <;> rw [hsource]
  · intro hempty
    have hpre := sourceWatermarkPrefix_sourceID label rec version
    rw [hempty] at hpre
    exact absurd hpre (by decide)
  · exact sourceWatermarkPrefix_sourceID label rec version

theorem Holds.key {request : Request} (h : Holds request rec) : keyOf rec = request.key :=
  (keyOf_eq_iff _ _).mpr h.target

theorem event_lands {p : Partition} {env : Env} {request : Request} (hf : p.Fenced "state" v0)
    (hscope : InScope p.spec.toProjectionSpec request) (hh : Holds request rec)
    (hid : request.target.recordID ≠ "") (hv0 : v0 < version) (hlow : p.fence "state" < version)
    (h0 : env.ctxDone 0 = false) (h1 : env.ctxDone 1 = false)
    (hnew : ∀ label, sourceID label rec version ∉ p.applied)
    (hroom : request.kind ≠ .delete → p.idle.HasRoom rec) :
    ((hotApply env p (event request.kind rec version)).idle.entry request.key).map (·.record) =
        carried request.kind rec ∧
      (hotApply env p (event request.kind rec version)).fence "state" = version := by
  have hsent := event_sent request.kind rec (Nat.zero_lt_of_lt hv0)
  have hmax : max v0 (p.fence "state") < (event request.kind rec version).version := by
    rw [event_version]
    exact max_lt hv0 hlow
  have hsource : trimSpace (event request.kind rec version).sourceID ∉ p.applied := by
    obtain ⟨label, heq⟩ := event_source request.kind rec version
    rw [heq]
    exact hnew label
  have htarget : trimSpace rec.domain = p.spec.domain ∧
      trimSpace rec.collection = p.spec.collection ∧
      trimSpace rec.organizationID ≠ "" ∧ trimSpace rec.recordID ≠ "" := by
    have ht := hh.target
    simp only [Request.target, identityOf, recordIdentity, RecordIdentity.mk.injEq] at ht hid
    rw [ht.1, ht.2.1, ht.2.2.1, ht.2.2.2]
    exact ⟨hscope.domain, hscope.collection, hscope.organizationID, hid⟩
  obtain ⟨hd, hc, ho, hi⟩ := htarget
  rw [← hh.key]
  by_cases hk : request.kind = .delete
  · have hop : (event request.kind rec version).operation = .delete := by
      unfold event
      rw [if_pos hk]
    obtain ⟨hgone, hfence⟩ := hf.delete_lands hop hsent h0 h1 hmax hsource (fun now => by
      rw [event_record]
      obtain ⟨out, hout, hod, hoc⟩ := normalizeRecord_nonblank now (hd ▸ p.spec.domain_ne)
        (hc ▸ p.spec.collection_ne) ho hi
      exact ⟨out, hout, hod.trans hd, hoc.trans hc⟩)
    rw [event_record] at hgone
    rw [event_version] at hfence
    rw [hgone, carried, if_pos hk]
    exact ⟨rfl, hfence⟩
  · have hop : (event request.kind rec version).operation = .upsert := by
      unfold event
      rw [if_neg hk]
    have hst := hh.stored hk
    obtain ⟨hlive, hfence⟩ := hf.upsert_lands hop hsent h0 h1 hmax hsource
      (fun now => by
        rw [event_record]
        exact normalizeRecord_stored hst (hst.organizationID_trim ▸ ho) now)
      (by rw [event_record]; exact hst.domain_trim.symm.trans hd)
      (by rw [event_record]; exact hst.collection_trim.symm.trans hc)
      (by rw [event_record]; exact hroom hk)
    rw [event_record] at hlive
    rw [event_version] at hfence
    rw [hlive, carried, if_neg hk]
    exact ⟨rfl, hfence⟩

theorem Inv.apply {env : Env} (h : Inv requests v0 s) (hi : s.phase i = .reserved rec version)
    (hadm : Admitted requests s i rec version env) :
    Inv requests v0 { s with
      part := hotApply env s.part (event (requests i).kind rec version)
      phase := Function.update s.phase i (.returned rec version) } := by
  obtain ⟨hv0, hver⟩ := h.stamped i rec version (.inl hi)
  have hadv := h.fenced.hotApply (event_sent (requests i).kind rec (Nat.zero_lt_of_lt hv0)) env
  -- the step changes no version, only who has returned
  have hst : ∀ {j r v}, (Function.update s.phase i (.returned rec version) j).Stamped r v ↔
      (s.phase j).Stamped r v := by
    intro j r v
    by_cases hji : j = i
    · subst hji
      rw [Function.update_self, hi]
      constructor <;> rintro (hs | hs) <;> cases hs
      · exact .inl rfl
      · exact .inr rfl
    · rw [update_phase hji]
  have hhold : ∀ {j r}, Function.update s.phase i (.returned rec version) j = .holding r ↔
      s.phase j = .holding r := by
    intro j r
    by_cases hji : j = i
    · subst hji
      rw [Function.update_self, hi]
      exact iff_of_false (by rintro ⟨⟩) (by rintro ⟨⟩)
    · rw [update_phase hji]
  have hlatest : ∀ {j v}, Latest requests { s with
      part := hotApply env s.part (event (requests i).kind rec version)
      phase := Function.update s.phase i (.returned rec version) } j v → Latest requests s j v :=
    fun hl k r w hk ht => hl k r w (hst.mpr hk) ht
  refine ⟨fun j => ?_, hadv.fenced, h.started, fun j r v hj => h.stamped j r v (hst.mp hj),
    fun j k r r' v hj hk => h.distinct j k r r' v (hst.mp hj) (hst.mp hk),
    fun v label r hv hin => ?_, ?_,
    fun j r hj => h.held j r (hj.imp hhold.mp fun ⟨v, hv⟩ => ⟨v, hst.mp hv⟩),
    fun j r v hj hl hq => h.base j r v (hst.mp hj) (hlatest hl) fun k q hk => hq k q (hhold.mpr hk),
    fun j r v hj hid hl => ?_⟩
  · dsimp only
    rw [hadv.spec]
    exact h.scope j
  · have hold : s.version < v ∨ ∃ k q, k ≠ i ∧ s.phase k = .reserved q v := by
      refine hv.imp_right fun ⟨k, q, hk⟩ => ⟨k, q, ?_⟩
      by_cases hki : k = i
      · subst hki
        dsimp only at hk
        rw [Function.update_self] at hk
        cases hk
      · dsimp only at hk
        rw [update_phase hki] at hk
        exact ⟨hki, hk⟩
    rcases Finset.mem_insert.mp (hadv.applied hin) with heq | hmem
    · obtain ⟨own, hown⟩ := event_source (requests i).kind rec version
      rw [hown] at heq
      obtain rfl := sourceID_version_inj heq
      rcases hold with hlt | ⟨k, q, hki, hk⟩
      · omega
      · exact hki (h.distinct k i q rec v (.inl hk) (.inl hi))
    · exact h.unknown v label r (hold.imp_right fun ⟨k, q, _, hk⟩ => ⟨k, q, hk⟩) hmem
  · have hbound := hadv.bounded
    rw [event_version] at hbound
    rcases le_total (s.part.fence "state") version with hle | hle
    · refine .inr ⟨i, rec, version, by dsimp only; rw [Function.update_self], ?_⟩
      rwa [max_eq_right hle] at hbound
    · rw [max_eq_left hle] at hbound
      refine h.fence_le.imp hbound.trans fun ⟨k, q, v, hk, hkv⟩ => ⟨k, q, v, ?_, hbound.trans hkv⟩
      have hki : k ≠ i := by
        rintro rfl
        rw [hi] at hk
        cases hk
      exact (update_phase hki).trans hk
  · by_cases hji : j = i
    · subst hji
      dsimp only at hj
      rw [Function.update_self] at hj
      cases hj
      rcases hadm with ⟨h0, h1, hlow, hroom⟩ | ⟨k, q, w, hk, ht, hlt⟩
      · obtain ⟨hlive, hfence⟩ :=
          event_lands h.fenced (h.scope j) (h.held j rec (.inr ⟨version, .inl hi⟩)) hid hv0
          hlow h0 h1 (fun label => h.unknown version label rec (.inr ⟨j, rec, hi⟩)) hroom
        exact ⟨hlive, hfence.ge⟩
      · exact absurd (hl k q w (hst.mpr hk) ht) (not_le.mpr hlt)
    · dsimp only at hj
      rw [update_phase hji] at hj
      obtain ⟨hold, hle⟩ := h.hot j r v hj hid (hlatest hl)
      refine ⟨?_, hle.trans hadv.grows⟩
      dsimp only
      by_cases ht : (requests i).target = (requests j).target
      · -- an older version of the same record finds the fence above it
        have hvi := hl i rec version (hst.mpr (.inl hi)) ht
        rw [hadv.stale (by rw [event_version]; exact hvi.trans hle)]
        exact hold
      · rw [hadv.others, hold]
        rw [event_record, Holds.key (h.held i rec (.inr ⟨version, .inl hi⟩))]
        exact fun hkey => ht ((keyOf_eq_iff _ _).mp hkey).symm

end Foundation.Hermes.Interleaving
