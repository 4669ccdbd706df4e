import Foundation.Sanity.Bulk
import Foundation.Sanity.Ledger
import Foundation.Spec.Interleaving

/-! One event on a partition all of whose writers share a fence. The fence only rises; an
event at or below it changes nothing, and one above it takes effect unless a limit or a
cancelled context stops it. -/

namespace Foundation.Hermes

open Go Interleaving

theorem Batch.Behind.idle {b : Batch} {bound : ℕ} (h : b.Behind bound) : b.part.idle.Behind bound :=
  ⟨⟨h.keyed.1, h.keyed.2, h.keyed.3, h.keyed.4, h.keyed.5, h.keyed.6⟩, h.fenced, h.buried⟩

@[simp] theorem Batch.idle_entry (b : Batch) (key : String) : b.part.idle.entry key = b.entry key :=
  rfl

namespace Partition

def fence (pre : String) (p : Partition) : ℕ := ((p.watermarks.lookup pre).getD {}).version

/-- Nothing in the partition is newer than the fence, up to the version `v0` it started with. -/
structure Fenced (pre : String) (v0 : ℕ) (p : Partition) : Prop where
  ttl : p.spec.ttl ≤ 0
  accounted : p.Accounted
  behind : p.idle.Behind (max v0 (p.fence pre))
  entries : ∀ key e, p.idle.entry key = some e → e.version ≤ max v0 (p.fence pre)

/-- What one event of the fence's writers can do. -/
structure Advances (pre : String) (v0 : ℕ) (event : Event) (p p' : Partition) : Prop where
  fenced : p'.Fenced pre v0
  spec : p'.spec = p.spec
  grows : p.fence pre ≤ p'.fence pre
  bounded : p'.fence pre ≤ max (p.fence pre) event.version
  others : ∀ key, key ≠ keyOf event.record → p'.idle.entry key = p.idle.entry key
  stale : event.version ≤ p.fence pre → ∀ key, p'.idle.entry key = p.idle.entry key
  applied : p'.applied ⊆ insert (trimSpace event.sourceID) p.applied

/-- An event that the fence's writers send. -/
structure Sent (pre : String) (event : Event) : Prop where
  version_pos : 0 < event.version
  source_ne : trimSpace event.sourceID ≠ ""
  source_pre : sourceWatermarkPrefix (trimSpace event.sourceID) = some pre

variable {pre : String} {v0 : ℕ} {p : Partition} {event : Event}

theorem Fenced.advances_refl (h : p.Fenced pre v0) (event : Event) : p.Advances pre v0 event p :=
  ⟨h, rfl, le_rfl, le_max_left _ _, fun _ _ => rfl, fun _ _ => rfl, Finset.subset_insert _ _⟩

theorem Advances.published {q : Partition} (h : p.Advances pre v0 event q)
    (indexes : IndexKey → IndexSnapshot) (epoch : ℕ) : p.Advances pre v0 event
      { q with registry := { q.registry with indexes := indexes }, epoch := epoch } := by
  obtain ⟨⟨httl, ⟨hc, hn, ha⟩, ⟨⟨k1, k2, k3, k4, k5, k6⟩, hf, hb⟩, he⟩, hs, hg, hbd, ho,
    hst, hap⟩ := h
  exact ⟨⟨httl, ⟨hc, hn, ha⟩, ⟨⟨k1, k2, k3, k4, k5, k6⟩, hf, hb⟩, he⟩, hs, hg, hbd, ho, hst, hap⟩

theorem unapplied {source : String} {version : ℕ} (hne : source ≠ "")
    (hpre : sourceWatermarkPrefix source = some pre) (hpos : 0 < version)
    (h : p.alreadyAppliedLocked source version = false) :
    source ∉ p.applied ∧ p.fence pre < version := by
  unfold alreadyAppliedLocked Partition.fenced at h
  rw [if_neg hne, hpre] at h
  simp only [Bool.or_eq_false_iff, decide_eq_false_iff_not] at h
  refine ⟨h.1, ?_⟩
  unfold fence
  cases hl : p.watermarks.lookup pre with
  | none => exact hpos
  | some wm =>
    have h2 := h.2
    rw [hl] at h2
    simp only [Option.any_some, Bool.and_eq_false_iff, decide_eq_false_iff_not] at h2
    simp only [Option.getD_some]
    omega

/-- Remembering the event's source raises the fence to the event's version. -/
theorem Fenced.remember {b : Batch} (hs : Sent pre event) (hb : b.part.Accounted)
    (hnew : trimSpace event.sourceID ∉ b.part.applied) (hlow : b.part.fence pre < event.version) :
    (b.remember (trimSpace event.sourceID) event.version).part.Accounted ∧
      (b.remember (trimSpace event.sourceID) event.version).part.fence pre = event.version := by
  obtain ⟨hacc, wm, hl, hv⟩ := hb.remember event.version hs.source_ne hnew hs.source_pre
  dsimp only [Batch.remember]
  refine ⟨hacc, ?_⟩
  unfold fence
  rw [hl, Option.getD_some, hv]
  exact max_eq_right hlow.le

theorem advances_remembered {b b' : Batch} (h : b.part.Fenced pre v0) (hs : Sent pre event)
    (hnew : trimSpace event.sourceID ∉ b.part.applied) (hlow : b.part.fence pre < event.version)
    (hb : b'.Behind (max v0 event.version)) (hacc : b'.part.Accounted)
    (hwm : b'.part.watermarks = b.part.watermarks) (happ : b'.part.applied = b.part.applied)
    (hspec : b'.part.spec = b.part.spec)
    (hentry : ∀ key e, b'.entry key = some e → b.entry key = some e ∨ e.version = event.version)
    (hothers : ∀ key, key ≠ keyOf event.record → b'.entry key = b.entry key) :
    b.part.Advances pre v0 event (b'.remember (trimSpace event.sourceID) event.version).part := by
  have hfence : b'.part.fence pre = b.part.fence pre := by rw [fence, fence, hwm]
  obtain ⟨hacc', hraised⟩ := Fenced.remember hs hacc (happ ▸ hnew) (hfence ▸ hlow)
  have hrem := hb.remember (le_max_right _ _) (trimSpace event.sourceID)
  refine ⟨⟨?_, hacc', ?_, fun key e he => ?_⟩, ?_, ?_, ?_, ?_, ?_, ?_⟩
  · rw [Batch.remember_spec, hspec]
    exact h.ttl
  · rw [hraised]
    exact hrem.idle
  · rw [hraised]
    rw [Batch.idle_entry, Batch.remember_entry] at he
    rcases hentry key e he with hold | hver
    · exact (h.entries key e hold).trans (max_le_max_left _ hlow.le)
    · exact hver ▸ le_max_right _ _
  · rw [Batch.remember_spec, hspec]
  · rw [hraised]
    exact hlow.le
  · rw [hraised]
    exact le_max_right _ _
  · intro key hne
    rw [Batch.idle_entry, Batch.remember_entry]
    exact hothers key hne
  · intro hstale
    exact absurd hstale (not_le.mpr hlow)
  · rw [← happ]
    dsimp only [Batch.remember]
    exact rememberAppliedLocked_applied _ _ _

theorem Fenced.mutates {b mid : Batch} {m : AppliedMutation} (h : b.part.Fenced pre v0)
    (hb : b.Behind (max v0 (b.part.fence pre))) (hs : Sent pre event)
    (hnew : trimSpace event.sourceID ∉ b.part.applied) (hlow : b.part.fence pre < event.version)
    (hrec : m.record = event.record) (hver : m.version = event.version) (hm : b.Mutates m mid) :
    b.part.Advances pre v0 event (mid.remember (trimSpace event.sourceID) event.version).part := by
  have hmono : b.Behind (max v0 event.version) := hb.mono (max_le_max_left _ hlow.le)
  cases hm with
  | store entry op patches key version value fits =>
    have hv : entry.version = event.version := version.symm.trans hver
    refine advances_remembered h hs hnew hlow (hmono.store fits)
      (h.accounted.of_eq ?_ ?_ ?_) ?_ ?_ ?_
      (fun k e he => ?_) (fun k hne => ?_)
    · exact Batch.store_applyOrder b entry
    · exact Batch.store_applied b entry
    · exact Batch.store_watermarks b entry
    · exact Batch.store_watermarks b entry
    · exact Batch.store_applied b entry
    · exact Batch.store_spec b entry
    · rw [Batch.store_entry] at he
      split_ifs at he
      · obtain rfl := Option.some.inj he
        exact .inr hv
      · exact .inl he
    · rw [Batch.store_entry, if_neg (by rw [← key, hrec]; exact hne)]
  | bury source op deletable =>
    refine advances_remembered h hs hnew hlow
      (hmono.bury (by rw [hver]; exact le_max_right _ _) _ _)
      (h.accounted.of_eq ?_ ?_ ?_) ?_ ?_ ?_ (fun k e he => ?_) (fun k hne => ?_)
    · exact Batch.bury_applyOrder b _ _ _
    · exact Batch.bury_applied b _ _ _
    · exact Batch.bury_watermarks b _ _ _
    · exact Batch.bury_watermarks b _ _ _
    · exact Batch.bury_applied b _ _ _
    · exact Batch.bury_spec b _ _ _
    · rw [Batch.bury_entry] at he
      split_ifs at he
      exact .inl he
    · rw [Batch.bury_entry, if_neg (by rw [hrec]; exact hne)]

theorem Fenced.applyOne {w : Progress} (h : w.batch.part.Fenced pre v0)
    (hb : w.batch.Behind (max v0 (w.batch.part.fence pre))) (hs : Sent pre event) (now : Time) :
    w.batch.part.Advances pre v0 event (w.applyOne now event).batch.part := by
  have hver : w.batch.eventVersion event = event.version := if_pos hs.version_pos
  rcases Progress.applyOne_cases hb.keyed now event with
    ⟨-, -, heq | ⟨hold, heq⟩⟩ | ⟨hadmits, mid, hm, -, -, heq⟩
  · rw [heq]
    exact h.advances_refl event
  · rw [hver] at hold heq
    obtain ⟨hnew, hlow⟩ := unapplied hs.source_ne hs.source_pre hs.version_pos hold
    rw [heq]
    exact advances_remembered h hs hnew hlow (hb.mono (max_le_max_left _ hlow.le))
      h.accounted rfl rfl rfl
      (fun _ _ he => .inl he) fun _ _ => rfl
  · have hold := hadmits.fresh
    rw [hver] at hold heq hm
    obtain ⟨hnew, hlow⟩ := unapplied hs.source_ne hs.source_pre hs.version_pos hold
    have hadv := h.mutates hb hs hnew hlow rfl rfl hm
    rw [heq]
    generalize mid.remember (trimSpace event.sourceID) event.version = out at hadv
    obtain ⟨⟨httl, ⟨hc, hn, ha⟩, ⟨⟨k1, k2, k3, k4, k5, k6⟩, hf, hbu⟩, he⟩, hsp, hg, hbd, ho,
      hst, hap⟩ := hadv
    exact ⟨⟨httl, ⟨hc, hn, ha⟩, ⟨⟨k1, k2, k3, k4, k5, k6⟩, hf, hbu⟩, he⟩, hsp, hg, hbd,
      ho, hst, hap⟩

/-! ### The hot apply of one event -/

def opened (p : Partition) : Progress := { batch := p.idle, result := { epoch := p.epoch } }

theorem hotApply_cases (env : Env) (event : Event) (httl : p.spec.ttl ≤ 0) :
    hotApply env p event = p ∨ env.ctxDone 0 = false ∧ env.ctxDone 1 = false ∧ ∃ indexes epoch,
      hotApply env p event = { (p.opened.applyOne (env.clock 1) event).batch.part with
        registry :=
          { (p.opened.applyOne (env.clock 1) event).batch.part.registry with indexes := indexes }
        epoch := epoch } := by
  unfold hotApply
  split_ifs with h0
  · exact .inl rfl
  · unfold applyBatchObserving
    rw [startBatch_of_no_ttl httl]
    cases h1 : env.ctxDone 1 with
    | true =>
      rw [Progress.applyLoop, if_pos h1]
      exact .inl rfl
    | false =>
      rw [Progress.applyLoop_cons h1, Progress.applyLoop]
      exact .inr ⟨by simpa using h0, rfl, (p.opened.applyOne (env.clock 1) event).finish_eq⟩

variable {env : Env}

theorem hotApply_live (event : Event) (httl : p.spec.ttl ≤ 0) (h0 : env.ctxDone 0 = false)
    (h1 : env.ctxDone 1 = false) : ∃ indexes epoch,
      hotApply env p event = { (p.opened.applyOne (env.clock 1) event).batch.part with
        registry :=
          { (p.opened.applyOne (env.clock 1) event).batch.part.registry with indexes := indexes }
        epoch := epoch } := by
  unfold hotApply applyBatchObserving
  rw [if_neg (by simp [h0]), startBatch_of_no_ttl httl, Progress.applyLoop_cons h1,
    Progress.applyLoop]
  exact (p.opened.applyOne (env.clock 1) event).finish_eq

theorem Fenced.hotApply (h : p.Fenced pre v0) (hs : Sent pre event) (env : Env) :
    p.Advances pre v0 event (hotApply env p event) := by
  rcases hotApply_cases env event h.ttl with heq | ⟨-, -, indexes, epoch, heq⟩
  · rw [heq]
    exact h.advances_refl event
  · rw [heq]
    have hone := Fenced.applyOne (w := p.opened) h h.behind hs (env.clock 1)
    exact hone.published indexes epoch

/-- An upsert above the fence takes effect if the limits leave room for it. -/
theorem Fenced.upsert_lands (h : p.Fenced pre v0) (hop : event.operation = .upsert)
    (hs : Sent pre event) (h0 : env.ctxDone 0 = false) (h1 : env.ctxDone 1 = false)
    (hlow : max v0 (p.fence pre) < event.version) (hnew : trimSpace event.sourceID ∉ p.applied)
    (hrec : ∀ now, normalizeRecord now event.record = .ok event.record)
    (hd : event.record.domain = p.spec.domain) (hc : event.record.collection = p.spec.collection)
    (hroom : p.idle.HasRoom event.record) :
    ((Interleaving.hotApply env p event).idle.entry (keyOf event.record)).map (·.record) =
      some event.record ∧
      (Interleaving.hotApply env p event).fence pre = event.version := by
  obtain ⟨indexes, epoch, heq⟩ := hotApply_live event h.ttl h0 h1
  rcases Progress.applyOne_upsert (w := p.opened) h.behind hop hlow hnew (hrec (env.clock 1)) hd hc
    (fun old ho => (h.entries _ old ho).trans hlow.le) with ⟨hfull, -⟩ | ⟨entry, hentry,
      hver, hfits, hout⟩
  · exact absurd hroom hfull
  · rw [hout, Progress.settle_applied_batch] at heq
    have hacc : (p.opened.batch.store entry).part.Accounted :=
      h.accounted.of_eq (Batch.store_applyOrder _ _) (Batch.store_applied _ _)
        (Batch.store_watermarks _ _)
    have hfence : (p.opened.batch.store entry).part.fence pre = p.fence pre := by
      rw [fence, Batch.store_watermarks]
      rfl
    obtain ⟨-, hraised⟩ := Fenced.remember hs hacc (by rw [Batch.store_applied]; exact hnew)
      (by rw [hfence]; exact (le_max_right _ _).trans_lt hlow)
    have hstored :
        ((p.opened.batch.store entry).remember (trimSpace event.sourceID) event.version).entry
        (keyOf event.record) = some entry := by
      rw [Batch.remember_entry, Batch.store_entry, if_pos (by rw [hentry])]
    rw [heq]
    generalize (p.opened.batch.store entry).remember (trimSpace event.sourceID) event.version = out
      at hraised hstored
    refine ⟨?_, hraised⟩
    have hread : ((out.observe event.version).part.registry.records.lookup (keyOf event.record)) =
        some entry :=
      hstored
    simp only [idle, Batch.entry, hread, Option.map_some, hentry]

theorem Fenced.delete_lands (h : p.Fenced pre v0) (hop : event.operation = .delete)
    (hs : Sent pre event) (h0 : env.ctxDone 0 = false) (h1 : env.ctxDone 1 = false)
    (hlow : max v0 (p.fence pre) < event.version) (hnew : trimSpace event.sourceID ∉ p.applied)
    (hrec : ∀ now, ∃ rec, normalizeRecord now event.record = .ok rec ∧ rec.domain = p.spec.domain ∧
      rec.collection = p.spec.collection) :
    (Interleaving.hotApply env p event).idle.entry (keyOf event.record) = none ∧
      (Interleaving.hotApply env p event).fence pre = event.version := by
  obtain ⟨indexes, epoch, heq⟩ := hotApply_live event h.ttl h0 h1
  obtain ⟨rec, hnorm, hd, hc⟩ := hrec (env.clock 1)
  have hkey : keyOf rec = keyOf event.record := (keyOf_eq_iff _ _).mpr (normalizeRecord_ok hnorm).2
  rw [Progress.applyOne_delete (w := p.opened) h.behind hop hlow hnew hnorm hd hc
    (fun old ho => (h.entries _ old ho).trans hlow.le), Progress.settle_applied_batch, hkey] at heq
  have hacc :
      (p.opened.batch.bury (keyOf event.record) (trimSpace event.sourceID)
      event.version).part.Accounted :=
    h.accounted.of_eq (Batch.bury_applyOrder _ _ _ _) (Batch.bury_applied _ _ _ _)
      (Batch.bury_watermarks _ _ _ _)
  have hfence :
      (p.opened.batch.bury (keyOf event.record) (trimSpace event.sourceID) event.version).part.fence
      pre =
      p.fence pre := by
    rw [fence, Batch.bury_watermarks]
    rfl
  obtain ⟨-, hraised⟩ := Fenced.remember hs hacc (by rw [Batch.bury_applied]; exact hnew)
    (by rw [hfence]; exact (le_max_right _ _).trans_lt hlow)
  have hgone :
      ((p.opened.batch.bury (keyOf event.record) (trimSpace event.sourceID) event.version).remember
      (trimSpace event.sourceID) event.version).entry (keyOf event.record) = none := by
    rw [Batch.remember_entry, Batch.bury_entry, if_pos rfl]
  rw [heq]
  generalize (p.opened.batch.bury (keyOf event.record) (trimSpace event.sourceID)
    event.version).remember
    (trimSpace event.sourceID) event.version = out at hraised hgone
  exact ⟨hgone, hraised⟩

end Partition

end Foundation.Hermes
