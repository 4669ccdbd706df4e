import Foundation.Sanity.Fence
import Foundation.Sanity.Steps

/-! A batch of records none of which the partition has seen. `applyRecords` numbers the
records and names their sources itself, so the only replays it can meet are its own. -/

namespace Foundation.Hermes

open Go

def ApplyResult.Complete (r : ApplyResult) (count : ℕ) : Prop :=
  r.applied = count ∧ r.duplicates = 0 ∧ r.ignored = 0

@[simp] theorem Batch.observe_fence (b : Batch) (version : ℕ) (pre : String) :
    (b.observe version).part.fence pre = b.part.fence pre := rfl

namespace Partition

/-! ### The window of remembered sources -/

theorem evictApplied_order {bound : ℤ} (hbound : 0 < bound) (order : List String)
    (applied : Finset String) (watermarks : GoMap String WatermarkFence) :
    (evictApplied bound order applied watermarks).1 = order.rtake bound.toNat := by
  induction order generalizing applied watermarks with
  | nil => simp [evictApplied, List.rtake]
  | cons oldest rest ih =>
    unfold evictApplied
    split_ifs with hlen
    · rw [ih]
      simp only [List.length_cons] at hlen
      unfold List.rtake
      rw [List.length_cons, show rest.length + 1 - bound.toNat =
        rest.length - bound.toNat + 1 by omega,
        List.drop_succ_cons]
    · unfold List.rtake
      rw [show (oldest :: rest).length - bound.toNat = 0 by omega, List.drop_zero]

variable {source : String} {rec : DomainRecord} {records : List DomainRecord}

theorem rememberAppliedLocked_order {p : Partition} (version : ℕ) (hne : source ≠ "")
    (hnew : source ∉ p.applied) : (p.rememberAppliedLocked source version).applyOrder =
      (p.applyOrder ++ [source]).rtake p.spec.maxAppliedEvents.toNat := by
  rw [rememberAppliedLocked, if_neg (by simp [hne, hnew])]
  exact evictApplied_order p.spec.maxAppliedEvents_pos _ _ _

theorem exists_rtake_append (old recent : List String) (n : ℕ) :
    ∃ kept, kept ⊆ old ∧ (old ++ recent).rtake n = kept ++ recent.rtake n := by
  refine ⟨old.drop ((old ++ recent).length - n), List.drop_subset _ _, ?_⟩
  unfold List.rtake
  rw [List.drop_append, List.length_append,
    show old.length + recent.length - n - old.length = recent.length - n by omega]

theorem rtake_snoc (recent : List String) (source : String) {n : ℕ} (hn : 0 < n) :
    (recent.rtake n ++ [source]).rtake n = (recent ++ [source]).rtake n := by
  obtain ⟨m, rfl⟩ : ∃ m, n = m + 1 := ⟨n - 1, by omega⟩
  rw [List.rtake_concat_succ, List.rtake_concat_succ]
  congr 1
  unfold List.rtake
  rw [List.drop_drop, List.length_drop]
  congr 1
  omega

theorem mem_rtake {recent : List String} {n : ℕ} :
    source ∈ recent.rtake n ↔ ∃ i, recent[i]? = some source ∧ recent.length - i ≤ n := by
  unfold List.rtake
  rw [List.mem_iff_getElem?]
  constructor
  · rintro ⟨i, hi⟩
    rw [List.getElem?_drop] at hi
    exact ⟨_, hi, by omega⟩
  · rintro ⟨i, hi, hle⟩
    refine ⟨i - (recent.length - n), ?_⟩
    rw [List.getElem?_drop, show recent.length - n + (i - (recent.length - n)) = i by omega]
    exact hi

/-! ### Fresh batches -/

/-- The source `applyRecords` remembers a record under. -/
def sourceOf (sourcePrefix : String) (rec : DomainRecord) : String :=
  trimSpace (recordEvent sourcePrefix 0 0 rec).sourceID

/-- The version `applyRecords` gives the record at position `i`. -/
def versionAt (p : Partition) (baseVersion i : ℕ) : ℕ :=
  p.effectiveVersion (if 0 < baseVersion then (baseVersion + i) % 2 ^ 64 else 0)

/-- Valid records of the projection under distinct keys that hold neither a record nor a
tombstone, with sources and fences the partition does not know. -/
structure FreshBatch (p : Partition) (sourcePrefix : String) (records : List DomainRecord) :
  Prop where
  colon : ':' ∉ sourcePrefix.toList
  unseen : ∀ rec ∈ records, sourceOf sourcePrefix rec ∉ p.applied
  unfenced : ∀ rec ∈ records, ∀ pre, sourceWatermarkPrefix (sourceOf sourcePrefix rec) = some pre →
    p.watermarks.lookup pre = none
  valid : ∀ rec ∈ records, ∀ now, ∃ out, normalizeRecord now rec = .ok out
  owned : ∀ rec ∈ records, p.idle.Owns rec
  distinct : (records.map keyOf).Nodup
  absent : ∀ rec ∈ records, p.registry.records.lookup (keyOf rec) = none
  unburied : ∀ rec ∈ records, p.tombstones.lookup (keyOf rec) = none

/-- The bytes a record takes once it is normalized. -/
def recordBytes (rec : DomainRecord) : ℤ :=
  ((normalizeIdentity rec).toOption.map estimateRecordBytes).getD 0

/-- The limits leave room for all of the records. -/
structure RoomFor (p : Partition) (records : List DomainRecord) : Prop where
  count : p.records + records.length ≤ p.spec.maxRecords
  bytes : p.bytes + (records.map recordBytes).sum ≤ p.spec.maxBytes

/-- The record after `seen` is no replay: it is newer than each of them, and none of those
still remembered has its source. -/
def NoReplay (p : Partition) (sourcePrefix : String) (baseVersion : ℕ) (seen : List DomainRecord)
    (rec : DomainRecord) : Prop :=
  ∀ i earlier, seen[i]? = some earlier →
    p.versionAt baseVersion i < p.versionAt baseVersion seen.length ∧
    (sourceOf sourcePrefix earlier = sourceOf sourcePrefix rec →
      p.spec.maxAppliedEvents < (seen.length - i : ℕ))

/-- Either the batch names no sources, or no record of it is a replay of an earlier one. -/
def Distinguished (p : Partition) (sourcePrefix : String) (baseVersion : ℕ)
    (records : List DomainRecord) : Prop :=
  sourcePrefix = "" ∨
    ∀ i rec, records[i]? = some rec → p.NoReplay sourcePrefix baseVersion (records.take i) rec

def fenceName (sourcePrefix : String) : String :=
  String.ofList (sourcePrefix.toList.dropWhile isSpace)

theorem toList_sourceID {sourcePrefix : String} (hne : sourcePrefix ≠ "") (baseVersion i : ℕ)
    (rec : DomainRecord) :
    (recordEvent sourcePrefix baseVersion i rec).sourceID.toList =
      sourcePrefix.toList ++ ':' :: (rec.organizationID ++ ":" ++ rec.recordID).toList := by
  unfold recordEvent
  dsimp only
  rw [if_pos hne]
  simp only [String.toList_append, List.append_assoc]
  rfl

theorem sourceOf_fence {sourcePrefix : String} (hne : sourcePrefix ≠ "")
    (hcolon : ':' ∉ sourcePrefix.toList) (rec : DomainRecord) :
    sourceOf sourcePrefix rec ≠ "" ∧
      sourceWatermarkPrefix (sourceOf sourcePrefix rec) = some (fenceName sourcePrefix) := by
  have hlist : (sourceOf sourcePrefix rec).toList = sourcePrefix.toList.dropWhile isSpace ++
      ':' :: ((rec.organizationID ++ ":" ++ rec.recordID).toList).rdropWhile isSpace := by
    rw [sourceOf, toList_trimSpace, toList_sourceID hne, trimChars_append_cons (by decide)]
  have hfree : ':' ∉ sourcePrefix.toList.dropWhile isSpace := fun hm =>
    hcolon ((List.dropWhile_suffix isSpace).subset hm)
  constructor
  · intro h
    rw [h] at hlist
    simp at hlist
  · unfold sourceWatermarkPrefix cutBefore
    rw [hlist, if_pos (by simp), List.takeWhile_append_of_pos]
    · simp [fenceName]
    · intro c hc
      simpa using fun heq : c = ':' => hfree (heq ▸ hc)

theorem sourceOf_empty (rec : DomainRecord) : sourceOf "" rec = "" := by
  unfold sourceOf recordEvent
  dsimp only
  rw [if_neg (by simp)]
  rfl

/-- The times a record is stamped with take no bytes. -/
theorem estimateRecordBytes_normal {now : Time} {rec out : DomainRecord}
    (h : normalizeRecord now rec = .ok out) :
    estimateRecordBytes out = recordBytes rec := by
  obtain ⟨mid, hmid, hout⟩ := except_bind_eq_ok h
  obtain rfl := Except.ok.inj hout
  rw [recordBytes, hmid]
  rfl

theorem recordBytes_nonneg (rec : DomainRecord) : 0 ≤ recordBytes rec := by
  unfold recordBytes
  cases (normalizeIdentity rec).toOption with
  | none => exact le_rfl
  | some out => exact Int.natCast_nonneg _

theorem RoomFor.stored {b : Batch} {rest : List DomainRecord} {entry : RecordEntry} {version : ℕ}
    (h : b.part.RoomFor (rec :: rest)) (hnone : b.entry (keyOf entry.record) = none)
    (hbytes : entry.bytes = recordBytes rec) :
    (((b.store entry).remember source version).observe version).part.RoomFor rest := by
  obtain ⟨hcount, hsum⟩ := h
  rw [List.length_cons] at hcount
  rw [List.map_cons, List.sum_cons] at hsum
  have hstored : (b.store entry).part.RoomFor rest := by
    constructor
    · rw [Batch.store_count, if_pos hnone, Batch.store_spec]
      omega
    · rw [Batch.store_bytes, Batch.nextBytes, hnone, hbytes, Option.map_none, Option.getD_none,
        Batch.store_spec]
      omega
  have hremembered : ((b.store entry).remember source version).part.RoomFor rest := by
    constructor
    · rw [Batch.remember_part, rememberAppliedLocked_records, rememberAppliedLocked_spec]
      exact hstored.count
    · rw [Batch.remember_part, rememberAppliedLocked_bytes, rememberAppliedLocked_spec]
      exact hstored.bytes
  generalize (b.store entry).remember source version = b' at hremembered
  exact ⟨hremembered.count, hremembered.bytes⟩

/-! ### One record -/

theorem alreadyApplied_iff {p : Partition} {source pre : String} {version : ℕ} (hne : source ≠ "")
    (hpre : sourceWatermarkPrefix source = some pre) (hpos : 0 < version) :
    p.alreadyAppliedLocked source version = true ↔ source ∈ p.applied ∨ version ≤ p.fence pre := by
  unfold alreadyAppliedLocked Partition.fenced fence
  rw [if_neg hne, hpre]
  simp only [Bool.or_eq_true, decide_eq_true_eq]
  refine or_congr Iff.rfl ?_
  cases p.watermarks.lookup pre with
  | none => simp only [Option.any_none, Bool.false_eq_true, Option.getD_none, false_iff]; omega
  | some wm =>
    simp only [Option.any_some, Bool.and_eq_true, decide_eq_true_eq, Option.getD_some]; omega

theorem applyEventLocked_record (b : Batch) (now : Time) (sourcePrefix : String) (baseVersion i : ℕ)
    (rec : DomainRecord) :
    b.applyEventLocked now (recordEvent sourcePrefix baseVersion i rec) =
      if b.part.alreadyAppliedLocked (sourceOf sourcePrefix rec)
        (b.part.versionAt baseVersion i) then
        .ok (.duplicate, 0, b)
      else do
        let out ← normalizeRecord now rec
        Batch.validateRecordScope b.part.spec.toProjectionSpec out
        let (state, b') ← b.upsertLocked now (keyOf out) out (sourceOf sourcePrefix rec)
          (b.part.versionAt baseVersion i)
        return (state, b.part.versionAt baseVersion i,
          b'.remember (sourceOf sourcePrefix rec) (b.part.versionAt baseVersion i)) :=
  rfl

/-- A new record under a key that holds nothing is stored if the limits leave room. -/
theorem applyOne_record {w : Progress} {sourcePrefix : String} {baseVersion i : ℕ}
    {rest : List DomainRecord} {now : Time} (hroom : w.batch.part.RoomFor (rec :: rest))
    (hvalid : ∃ out, normalizeRecord now rec = .ok out) (hown : w.batch.Owns rec)
    (hnone : w.batch.entry (keyOf rec) = none)
    (htomb : w.batch.part.tombstones.lookup (keyOf rec) = none)
    (hnew : w.batch.part.alreadyAppliedLocked (sourceOf sourcePrefix rec)
      (w.batch.part.versionAt baseVersion i) = false) :
    ∃ entry, keyOf entry.record = keyOf rec ∧ entry.bytes = recordBytes rec ∧
      w.applyOne now (recordEvent sourcePrefix baseVersion i rec) =
        w.settle (recordEvent sourcePrefix baseVersion i rec) .applied
          (w.batch.part.versionAt baseVersion i)
          ((w.batch.store entry).remember (sourceOf sourcePrefix rec)
            (w.batch.part.versionAt baseVersion i)) := by
  obtain ⟨out, hout⟩ := hvalid
  obtain ⟨hn, hid⟩ := normalizeRecord_ok hout
  have hkey : keyOf out = keyOf rec := (keyOf_eq_iff _ _).mpr hid
  have hscope : Batch.validateRecordScope w.batch.part.spec.toProjectionSpec out = .ok () := by
    have hd : out.domain = w.batch.part.spec.domain :=
      hn.domain_trim.symm.trans ((congrArg RecordIdentity.domain hid).trans hown.1)
    have hc : out.collection = w.batch.part.spec.collection :=
      hn.collection_trim.symm.trans ((congrArg RecordIdentity.collection hid).trans hown.2)
    unfold Batch.validateRecordScope
    rw [if_neg (by simp [hd, hc])]
  have hevent : w.batch.applyEventLocked now (recordEvent sourcePrefix baseVersion i rec) =
      (w.batch.upsertLocked now (keyOf rec) out (sourceOf sourcePrefix rec)
        (w.batch.part.versionAt baseVersion i)).map fun r =>
          (r.1, w.batch.part.versionAt baseVersion i,
          r.2.remember (sourceOf sourcePrefix rec) (w.batch.part.versionAt baseVersion i)) := by
    rw [applyEventLocked_record, if_neg (by simp [hnew]), hout]
    dsimp only [bind, Except.bind]
    rw [hscope, hkey]
    cases w.batch.upsertLocked now (keyOf rec) out (sourceOf sourcePrefix rec)
      (w.batch.part.versionAt baseVersion i) <;> rfl
  unfold Progress.applyOne
  rw [hevent]
  have hopen : w.batch.part.blockedByNewerTombstoneLocked (keyOf rec)
      (w.batch.part.versionAt baseVersion i) = false := by
    simp [blockedByNewerTombstoneLocked, htomb]
  have hsize := estimateRecordBytes_normal hout
  have hcount : ¬ w.batch.part.spec.maxRecords ≤ w.batch.part.records := by
    have := hroom.count
    rw [List.length_cons] at this
    omega
  have hbytes : ¬ w.batch.part.spec.maxBytes <
      w.batch.nextBytes (w.batch.entry (keyOf rec)) (estimateRecordBytes out) := by
    have hsum := hroom.bytes
    have hrest : 0 ≤ (rest.map recordBytes).sum :=
      List.sum_nonneg fun _ hx => by
        obtain ⟨other, -, rfl⟩ := List.mem_map.mp hx
        exact recordBytes_nonneg other
    rw [List.map_cons, List.sum_cons] at hsum
    rw [Batch.nextBytes, hnone, hsize, Option.map_none, Option.getD_none]
    omega
  unfold Batch.upsertLocked
  rw [if_neg (by simp [hopen]), if_neg (by simp [hnone]), if_neg fun hfull => hcount hfull.2,
    if_neg hbytes]
  refine ⟨⟨out, sourceOf sourcePrefix rec, w.batch.part.versionAt baseVersion i,
    estimateRecordBytes out,
    w.batch.part.expiry now⟩, hkey, hsize, ?_⟩
  rw [Batch.store, hkey]
  rfl

theorem applyOne_replayed {w : Progress} {sourcePrefix : String} {baseVersion i : ℕ} (now : Time)
    (hold : w.batch.part.alreadyAppliedLocked (sourceOf sourcePrefix rec)
      (w.batch.part.versionAt baseVersion i) = true) :
    (w.applyOne now (recordEvent sourcePrefix baseVersion i rec)).result.duplicates =
      w.result.duplicates + 1 := by
  unfold Progress.applyOne
  rw [applyEventLocked_record, if_pos hold]
  rfl

theorem applyOne_duplicates (w : Progress) (now : Time) (event : Event) :
    w.result.duplicates ≤ (w.applyOne now event).result.duplicates := by
  unfold Progress.applyOne
  split
  · exact le_rfl
  · rename_i state _ _ _
    cases state <;> simp [Progress.settle]

theorem applyLoop_duplicates (env : Env) (i : ℕ) (w : Progress) (events : List Event) :
    w.result.duplicates ≤ (Progress.applyLoop env i w events).result.duplicates :=
  Progress.applyLoop_rule (P := fun w' => w.result.duplicates ≤ w'.result.duplicates)
    (fun now w' event h _ => h.trans (applyOne_duplicates w' now event)) (fun _ h => h)
    (Progress.meets_true env i w events) le_rfl

/-! ### The whole batch -/

/-- The batch after the records `seen`, all of them applied, with `rest` to come. -/
structure Underway (p : Partition) (sourcePrefix : String) (baseVersion : ℕ)
  (seen rest : List DomainRecord)
    (w : Progress) : Prop where
  spec : w.batch.part.spec = p.spec
  epoch : w.batch.part.epoch = p.epoch
  accounted : w.batch.part.Accounted
  order : sourcePrefix ≠ "" → ∃ old, old ⊆ p.applyOrder ∧ w.batch.part.applyOrder =
    old ++ (seen.map (sourceOf sourcePrefix)).rtake p.spec.maxAppliedEvents.toNat
  fence_ge : sourcePrefix ≠ "" → ∀ i < seen.length,
    p.versionAt baseVersion i ≤ w.batch.part.fence (fenceName sourcePrefix)
  fence_eq : sourcePrefix ≠ "" → w.batch.part.fence (fenceName sourcePrefix) = 0 ∨
    ∃ i < seen.length, w.batch.part.fence (fenceName sourcePrefix) = p.versionAt baseVersion i
  absent : ∀ rec ∈ rest, w.batch.entry (keyOf rec) = none
  unburied : ∀ rec ∈ rest, w.batch.part.tombstones.lookup (keyOf rec) = none
  room : w.batch.part.RoomFor rest
  applied : w.result.applied = seen.length
  duplicates : w.result.duplicates = 0
  ignored : w.result.ignored = 0

variable {p : Partition} {sourcePrefix : String} {baseVersion : ℕ} {seen rest : List DomainRecord}
  {w : Progress}

theorem versionAt_pos (p : Partition) (baseVersion i : ℕ) : 0 < p.versionAt baseVersion i := by
  unfold versionAt effectiveVersion
  split_ifs <;> omega

theorem Underway.versionAt_eq (h : Underway p sourcePrefix baseVersion seen rest w) (i : ℕ) :
    w.batch.part.versionAt baseVersion i = p.versionAt baseVersion i := by
  rw [versionAt, effectiveVersion, h.epoch]
  rfl

/-- The check for replays finds one exactly when the record is a replay of one before it. -/
theorem Underway.alreadyApplied_iff (h : Underway p sourcePrefix baseVersion seen rest w)
    (hne : sourcePrefix ≠ "") (hcolon : ':' ∉ sourcePrefix.toList)
    (hnew : sourceOf sourcePrefix rec ∉ p.applyOrder) :
    w.batch.part.alreadyAppliedLocked (sourceOf sourcePrefix rec)
      (w.batch.part.versionAt baseVersion seen.length) =
      false ↔ p.NoReplay sourcePrefix baseVersion seen rec := by
  obtain ⟨hsne, hpre⟩ := sourceOf_fence hne hcolon rec
  obtain ⟨old, hold, horder⟩ := h.order hne
  have hpos := versionAt_pos w.batch.part baseVersion seen.length
  have hmem : sourceOf sourcePrefix rec ∈ w.batch.part.applied ↔ ∃ i earlier,
      seen[i]? = some earlier ∧
      sourceOf sourcePrefix earlier = sourceOf sourcePrefix rec ∧
        seen.length - i ≤ p.spec.maxAppliedEvents.toNat := by
    rw [h.accounted.applied_eq, List.mem_toFinset, horder, List.mem_append,
      or_iff_right fun hm => hnew (hold hm),
      mem_rtake]
    simp only [List.getElem?_map, Option.map_eq_some_iff, List.length_map]
    constructor
    · rintro ⟨i, ⟨earlier, hi, hs⟩, hle⟩
      exact ⟨i, earlier, hi, hs, hle⟩
    · rintro ⟨i, earlier, hi, hs, hle⟩
      exact ⟨i, ⟨earlier, hi, hs⟩, hle⟩
  have hfence : p.versionAt baseVersion seen.length ≤ w.batch.part.fence (fenceName sourcePrefix) ↔
      ∃ i < seen.length, p.versionAt baseVersion seen.length ≤ p.versionAt baseVersion i := by
    constructor
    · intro hle
      rcases h.fence_eq hne with hz | ⟨i, hi, heq⟩
      · have := versionAt_pos p baseVersion seen.length
        omega
      · exact ⟨i, hi, heq ▸ hle⟩
    · rintro ⟨i, hi, hle⟩
      exact hle.trans (h.fence_ge hne i hi)
  have hM := p.spec.maxAppliedEvents_pos
  rw [← Bool.not_eq_true, Partition.alreadyApplied_iff hsne hpre hpos, h.versionAt_eq, hmem,
    hfence, not_or]
  constructor
  · rintro ⟨hsource, hversion⟩ i earlier hi
    have hlt : i < seen.length := (List.getElem?_eq_some_iff.mp hi).1
    refine ⟨not_le.mp fun hle => hversion ⟨i, hlt, hle⟩, fun hs => ?_⟩
    by_contra hw
    exact hsource ⟨i, earlier, hi, hs, by omega⟩
  · intro hno
    constructor
    · rintro ⟨i, earlier, hi, hs, hle⟩
      have := (hno i earlier hi).2 hs
      omega
    · rintro ⟨i, hi, hle⟩
      exact absurd (hno i seen[i] (List.getElem?_eq_getElem hi)).1 (not_lt.mpr hle)

theorem Underway.remembered (h : Underway p sourcePrefix baseVersion seen rest w)
    (rec : DomainRecord) (hne : sourcePrefix ≠ "") (hcolon : ':' ∉ sourcePrefix.toList)
    (hnew : sourceOf sourcePrefix rec ∉ p.applyOrder)
    (hno : p.NoReplay sourcePrefix baseVersion seen rec) {q : Partition}
    (hspec : q.spec = w.batch.part.spec) (horder : q.applyOrder = w.batch.part.applyOrder)
    (happlied : q.applied = w.batch.part.applied) (hwm : q.watermarks = w.batch.part.watermarks) :
    (∃ old, old ⊆ p.applyOrder ∧
      (q.rememberAppliedLocked (sourceOf sourcePrefix rec)
        (p.versionAt baseVersion seen.length)).applyOrder =
        old ++ ((seen ++ [rec]).map (sourceOf sourcePrefix)).rtake p.spec.maxAppliedEvents.toNat) ∧
      (q.rememberAppliedLocked (sourceOf sourcePrefix rec)
        (p.versionAt baseVersion seen.length)).fence
        (fenceName sourcePrefix) = p.versionAt baseVersion seen.length := by
  obtain ⟨hsne, hpre⟩ := sourceOf_fence hne hcolon rec
  have hcheck := (h.alreadyApplied_iff hne hcolon hnew).mpr hno
  rw [← Bool.not_eq_true, Partition.alreadyApplied_iff hsne hpre (versionAt_pos _ _ _),
    h.versionAt_eq, not_or,
    not_le] at hcheck
  have hfresh : sourceOf sourcePrefix rec ∉ q.applied := happlied ▸ hcheck.1
  have hacc : q.Accounted := h.accounted.of_eq horder happlied hwm
  constructor
  · obtain ⟨old, hold, heq⟩ := h.order hne
    obtain ⟨kept, hkept, hkeq⟩ := exists_rtake_append old
      ((seen.map (sourceOf sourcePrefix)).rtake p.spec.maxAppliedEvents.toNat ++
        [sourceOf sourcePrefix rec])
      p.spec.maxAppliedEvents.toNat
    have hM := p.spec.maxAppliedEvents_pos
    refine ⟨kept, List.Subset.trans hkept hold, ?_⟩
    rw [rememberAppliedLocked_order _ hsne hfresh, horder, hspec, h.spec, heq,
      List.append_assoc, hkeq,
      rtake_snoc _ _ (by omega), List.map_append, List.map_singleton]
  · obtain ⟨-, fence, hl, hv⟩ :=
      hacc.remember (p.versionAt baseVersion seen.length) hsne hfresh hpre
    have hlow : ((q.watermarks.lookup (fenceName sourcePrefix)).getD {}).version <
        p.versionAt baseVersion seen.length := hwm ▸ hcheck.2
    rw [Partition.fence, hl, Option.getD_some, hv]
    exact max_eq_right hlow.le

theorem Underway.step {rec : DomainRecord}
    (h : Underway p sourcePrefix baseVersion seen (rec :: rest) w)
    (hcolon : ':' ∉ sourcePrefix.toList) (hdistinct : ((rec :: rest).map keyOf).Nodup)
    (hnew : sourceOf sourcePrefix rec ∉ p.applyOrder)
    (hno : sourcePrefix = "" ∨ p.NoReplay sourcePrefix baseVersion seen rec) {entry : RecordEntry}
    (hkey : keyOf entry.record = keyOf rec) (hbytes : entry.bytes = recordBytes rec) :
    Underway p sourcePrefix baseVersion (seen ++ [rec]) rest
      (w.settle (recordEvent sourcePrefix baseVersion seen.length rec) .applied
        (w.batch.part.versionAt baseVersion seen.length)
        ((w.batch.store entry).remember (sourceOf sourcePrefix rec)
          (w.batch.part.versionAt baseVersion seen.length))) := by
  have hrem : sourcePrefix ≠ "" → _ :=
    fun hne => h.remembered rec hne hcolon hnew (hno.resolve_left hne)
    (q := (w.batch.store entry).part) (by simp) (by simp) (by simp) (by simp)
  have hnext : ∀ other ∈ rest, keyOf other ≠ keyOf entry.record := by
    rw [List.map_cons, List.nodup_cons] at hdistinct
    intro other hmem heq
    exact hdistinct.1 (hkey ▸ heq ▸ List.mem_map_of_mem hmem)
  have hlen : (seen ++ [rec]).length = seen.length + 1 := by simp
  have hnone : w.batch.entry (keyOf entry.record) = none := by
    rw [hkey]
    exact h.absent rec List.mem_cons_self
  constructor
  · simp [h.spec]
  · simp [h.epoch]
  · have hacc : (w.batch.store entry).part.Accounted :=
      h.accounted.of_eq (by simp) (by simp) (by simp)
    exact (hacc.remember_batch _ _).observe _
  · intro hne
    rw [Progress.settle_applied_batch, Batch.observe_applyOrder, Batch.remember_part,
      h.versionAt_eq]
    exact (hrem hne).1
  · intro hne i hi
    rw [Progress.settle_applied_batch, Batch.observe_fence, Batch.remember_part, h.versionAt_eq,
      (hrem hne).2]
    rcases Nat.lt_succ_iff_lt_or_eq.mp (hlen ▸ hi) with hi | rfl
    · exact ((hno.resolve_left hne) i seen[i] (List.getElem?_eq_getElem hi)).1.le
    · exact le_rfl
  · intro hne
    rw [Progress.settle_applied_batch, Batch.observe_fence, Batch.remember_part, h.versionAt_eq,
      (hrem hne).2]
    exact .inr ⟨seen.length, by omega, rfl⟩
  · intro other hmem
    rw [Progress.settle_applied_batch, Batch.observe_entry, Batch.remember_entry, Batch.store_entry,
      if_neg (hnext other hmem)]
    exact h.absent other (List.mem_cons_of_mem _ hmem)
  · intro other hmem
    rw [Progress.settle_applied_batch, Batch.observe_tombstones, Batch.remember_part,
      rememberAppliedLocked_tombstones, Batch.store_tombstones, if_pos hnone, GoMap.lookup_erase_if,
      if_neg (hnext other hmem)]
    exact h.unburied other (List.mem_cons_of_mem _ hmem)
  · rw [Progress.settle_applied_batch]
    exact h.room.stored hnone hbytes
  · simp [Progress.settle, h.applied]
  · simp [Progress.settle, h.duplicates]
  · simp [Progress.settle, h.ignored]

/-- The sweep of expired keys has changed neither the ledger nor anything under the batch's keys. -/
structure Swept (p : Partition) (records : List DomainRecord) (w : Progress) : Prop where
  spec : w.batch.part.spec = p.spec
  epoch : w.batch.part.epoch = p.epoch
  applyOrder : w.batch.part.applyOrder = p.applyOrder
  applied : w.batch.part.applied = p.applied
  watermarks : w.batch.part.watermarks = p.watermarks
  result : w.result = { epoch := p.epoch }
  absent : ∀ rec ∈ records, w.batch.entry (keyOf rec) = none
  unburied : ∀ rec ∈ records, w.batch.part.tombstones.lookup (keyOf rec) = none

theorem Swept.expiry {w' : Progress} {entry : RecordEntry} (h : Swept p records w)
    (hstored : w.batch.entry (keyOf entry.record) = some entry)
    (hm : w.batch.Mutates ⟨.delete, entry.record, entry.version⟩ w'.batch)
    (hres : w'.result = w.result) :
    Swept p records w' := by
  have hne : ∀ rec ∈ records, keyOf rec ≠ keyOf entry.record := fun rec hrec heq => by
    have hnone := h.absent rec hrec
    rw [heq, hstored] at hnone
    cases hnone
  generalize hb : w'.batch = b' at hm
  cases hm with
  | store entry' op => rcases op with op | op <;> cases op
  | bury source op deletable owned =>
    refine ⟨by simp [hb, h.spec], by simp [hb, h.epoch], by simp [hb, h.applyOrder],
      by simp [hb, h.applied], by simp [hb, h.watermarks], hres.trans h.result, fun rec hrec => ?_, fun rec hrec => ?_⟩
    · rw [hb, Batch.bury_entry, if_neg (hne rec hrec)]
      exact h.absent rec hrec
    · rw [hb, Batch.bury_tombstones]
      cases hl :
        (w.batch.part.rememberTombstoneLocked (keyOf entry.record) source
        entry.version).tombstones.lookup
        (keyOf rec) with
      | none => rfl
      | some tomb =>
        rcases rememberTombstoneLocked_lookup hl with ⟨heq, -⟩ | hold
        · exact absurd heq (hne rec hrec)
        · rw [h.unburied rec hrec] at hold
          cases hold

theorem FreshBatch.swept (hf : p.FreshBatch sourcePrefix records) (hk : p.idle.Keyed) (env : Env) :
    Swept p records (p.startBatch env) :=
  (Progress.evictExpired_rule (P := Swept p records) env (fun _ hw hstored _ hm _ hres =>
    hw.expiry hstored hm hres)
    (w := { batch := ⟨p, ∅⟩, result := { epoch := p.epoch } }) hk
    ⟨rfl, rfl, rfl, rfl, rfl, rfl, hf.absent, hf.unburied⟩).2

theorem FreshBatch.start (hf : p.FreshBatch sourcePrefix records) (hk : p.idle.Keyed)
    (hacc : p.Accounted) (hrecords : records ≠ []) (baseVersion : ℕ) {env : Env}
    (hroom : (p.startBatch env).batch.part.RoomFor records) :
    Underway p sourcePrefix baseVersion [] records (p.startBatch env) := by
  have hs := hf.swept hk env
  have hnofence : sourcePrefix ≠ "" →
      (p.startBatch env).batch.part.fence (fenceName sourcePrefix) = 0 := by
    intro hne
    obtain ⟨rec, hrec⟩ := List.exists_mem_of_ne_nil _ hrecords
    rw [fence, hs.watermarks, hf.unfenced rec hrec _ (sourceOf_fence hne hf.colon rec).2]
    rfl
  refine ⟨hs.spec, hs.epoch, hacc.of_eq hs.applyOrder hs.applied hs.watermarks, fun _ => ?_, ?_,
    ?_, hs.absent,
    hs.unburied, hroom, ?_, ?_, ?_⟩
  · exact ⟨p.applyOrder, List.Subset.refl _, by simp [hs.applyOrder, List.rtake]⟩
  · intro _ i hi
    exact absurd hi (Nat.not_lt_zero i)
  · exact fun hne => .inl (hnofence hne)
  all_goals simp [hs.result]

theorem recordEvents_cons (sourcePrefix : String) (baseVersion : ℕ) (seen rest : List DomainRecord)
    (rec : DomainRecord) :
    ((rec :: rest).mapIdx fun i => recordEvent sourcePrefix baseVersion (seen.length + i)) =
      recordEvent sourcePrefix baseVersion seen.length rec ::
        rest.mapIdx fun i => recordEvent sourcePrefix baseVersion ((seen ++ [rec]).length + i) := by
  rw [List.mapIdx_cons, List.length_append]
  simp only [List.length_singleton, Nat.add_zero, Nat.add_assoc, Nat.add_comm 1]

theorem noReplay_cons_iff :
    (∀ i r, (rec :: rest)[i]? = some r →
      p.NoReplay sourcePrefix baseVersion (seen ++ (rec :: rest).take i) r) ↔
      p.NoReplay sourcePrefix baseVersion seen rec ∧ ∀ i r, rest[i]? = some r →
        p.NoReplay sourcePrefix baseVersion (seen ++ [rec] ++ rest.take i) r := by
  constructor
  · intro hall
    exact ⟨by simpa using hall 0 rec rfl, fun i r hi => by simpa using hall (i + 1) r hi⟩
  · rintro ⟨hhead, htail⟩ i r hi
    cases i with
    | zero =>
      obtain rfl : rec = r := by simpa using hi
      simpa using hhead
    | succ i => simpa using htail i r hi

theorem Underway.loop {env : Env} (hctx : ∀ i, env.ctxDone i = false)
    (hcolon : ':' ∉ sourcePrefix.toList) (h : Underway p sourcePrefix baseVersion seen rest w)
    (hvalid : ∀ rec ∈ rest, ∀ now, ∃ out, normalizeRecord now rec = .ok out)
    (hown : ∀ rec ∈ rest, p.idle.Owns rec) (hdistinct : (rest.map keyOf).Nodup)
    (hnew : ∀ rec ∈ rest, sourceOf sourcePrefix rec ∉ p.applyOrder) :
    ApplyResult.Complete (Progress.applyLoop env (seen.length + 1) w
        (rest.mapIdx fun i => recordEvent sourcePrefix baseVersion (seen.length + i))).result
        (seen.length + rest.length) ↔
      (sourcePrefix = "" ∨ ∀ i rec, rest[i]? = some rec →
        p.NoReplay sourcePrefix baseVersion (seen ++ rest.take i) rec) := by
  induction rest generalizing seen w with
  | nil =>
    refine iff_of_true ⟨by simpa [Progress.applyLoop] using h.applied, h.duplicates,
      h.ignored⟩ (.inr ?_)
    intro i rec hi
    simp at hi
  | cons rec rest ih =>
    rw [recordEvents_cons, Progress.applyLoop_cons (hctx _)]
    have hsource : sourcePrefix ≠ "" →
        (w.batch.part.alreadyAppliedLocked (sourceOf sourcePrefix rec)
        (w.batch.part.versionAt baseVersion seen.length) = false ↔
          p.NoReplay sourcePrefix baseVersion seen rec) :=
      fun hne => h.alreadyApplied_iff hne hcolon (hnew rec (by simp))
    by_cases hpass : sourcePrefix = "" ∨ p.NoReplay sourcePrefix baseVersion seen rec
    · have hcheck : w.batch.part.alreadyAppliedLocked (sourceOf sourcePrefix rec)
          (w.batch.part.versionAt baseVersion seen.length) = false := by
        by_cases hne : sourcePrefix = ""
        · rw [hne, sourceOf_empty, alreadyAppliedLocked, if_pos rfl]
        · exact (hsource hne).mpr (hpass.resolve_left hne)
      have hown' : w.batch.Owns rec := by
        unfold Batch.Owns
        rw [h.spec]
        exact hown rec (by simp)
      obtain ⟨entry, hkey, hbytes, hout⟩ := applyOne_record h.room
        (hvalid rec (by simp) (env.clock (seen.length + 1))) hown' (h.absent rec (by simp))
        (h.unburied rec (by simp)) hcheck
      have hlen : (seen ++ [rec]).length = seen.length + 1 := by simp
      have hstep := h.step hcolon hdistinct (hnew rec (by simp)) hpass hkey hbytes
      rw [hout, ← hlen]
      have hrest := ih hstep (fun r hr => hvalid r (by simp [hr]))
        (fun r hr => hown r (by simp [hr])) (List.nodup_cons.mp hdistinct).2
        fun r hr => hnew r (by simp [hr])
      have hcount : seen.length + (rest.length + 1) = (seen ++ [rec]).length + rest.length := by
        omega
      rw [List.length_cons, hcount, hrest, noReplay_cons_iff]
      exact or_congr_right' fun hne => ⟨fun hall => ⟨hpass.resolve_left hne, hall⟩, And.right⟩
    · rw [not_or] at hpass
      have hcheck : w.batch.part.alreadyAppliedLocked (sourceOf sourcePrefix rec)
          (w.batch.part.versionAt baseVersion seen.length) = true := by
        rw [← Bool.not_eq_false, hsource hpass.1]
        exact hpass.2
      refine iff_of_false (fun hdone => ?_) fun hall =>
        hpass.2 (noReplay_cons_iff.mp (hall.resolve_left hpass.1)).1
      have hmore := applyLoop_duplicates env (seen.length + 1 + 1)
        (w.applyOne (env.clock (seen.length + 1))
          (recordEvent sourcePrefix baseVersion seen.length rec))
        (rest.mapIdx fun i => recordEvent sourcePrefix baseVersion ((seen ++ [rec]).length + i))
      rw [applyOne_replayed _ hcheck] at hmore
      have := hdone.2.1
      omega

theorem finish_complete_iff (w : Progress) (count : ℕ) :
    ApplyResult.Complete w.finishApplyLocked.result count ↔
      ApplyResult.Complete w.result count := by
  unfold Progress.finishApplyLocked
  split_ifs <;> rfl

/-- A fresh batch for which there is room once what is due has left is applied as a whole exactly
when no record of it looks like a replay of another. -/
theorem applyRecords_complete_iff {spec : NormalSpec} (hp : Reach Step.Any spec p) {env : Env}
    (hctx : ∀ i, env.ctxDone i = false) {records : List DomainRecord}
    (hf : p.FreshBatch sourcePrefix records)
    (hroom : (p.startBatch env).batch.part.RoomFor records) :
    ApplyResult.Complete (p.applyRecords env sourcePrefix baseVersion records).result
      records.length ↔
      p.Distinguished sourcePrefix baseVersion records := by
  have hk := hp.keyed.1
  have hacc := hp.accounted
  unfold applyRecords applyBatchObserving
  rw [finish_complete_iff]
  by_cases hrecords : records = []
  · subst hrecords
    refine iff_of_true ?_ (.inr fun i rec hi => by simp at hi)
    have hres := (hf.swept hk env).result
    simp only [List.mapIdx_nil, Progress.applyLoop, hres]
    exact ⟨rfl, rfl, rfl⟩
  · have hloop :=
      (hf.start hk hacc hrecords baseVersion hroom).loop hctx hf.colon hf.valid hf.owned hf.distinct
      (fun rec hrec hm => hf.unseen rec hrec (hacc.applied_eq ▸ List.mem_toFinset.mpr hm))
    simp only [List.length_nil, Nat.zero_add, List.nil_append] at hloop
    exact hloop

/-- When the versions of a batch increase: it has at most one record, or a base version from which
numbering it does not leave the machine word. -/
theorem versionAt_increasing_iff {count : ℕ} (hbase : baseVersion < 2 ^ 64)
    (hepoch : p.epoch + 1 < 2 ^ 64) :
    (∀ i j, i < j → j < count → p.versionAt baseVersion i < p.versionAt baseVersion j) ↔
      count ≤ 1 ∨ 0 < baseVersion ∧ baseVersion + count ≤ 2 ^ 64 := by
  unfold versionAt effectiveVersion
  constructor
  · intro hinc
    by_contra hno
    rw [not_or, not_and, not_le, not_le] at hno
    rcases Nat.eq_zero_or_pos baseVersion with rfl | hpos
    · exact lt_irrefl _ (hinc 0 1 one_pos hno.1)
    · -- the record whose number wraps to zero comes right after the largest word
      have hwrap := hno.2 hpos
      have := hinc (2 ^ 64 - baseVersion - 1) (2 ^ 64 - baseVersion) (by omega) (by omega)
      rw [if_pos hpos, if_pos hpos, show baseVersion + (2 ^ 64 - baseVersion - 1) =
        2 ^ 64 - 1 by omega,
        show baseVersion + (2 ^ 64 - baseVersion) = 2 ^ 64 by omega] at this
      simp at this
      omega
  · rintro (hcount | ⟨hpos, hfit⟩) i j hij hj
    · omega
    · rw [if_pos hpos, if_pos hpos, Nat.mod_eq_of_lt (by omega), Nat.mod_eq_of_lt (by omega),
        if_pos (by omega),
        if_pos (by omega)]
      omega

/-! ### Two records of one batch -/

theorem valid_of_identity (h : (normalizeIdentity rec).isOk = true) (now : Time) :
    ∃ out, normalizeRecord now rec = .ok out := by
  unfold normalizeRecord
  cases hid : normalizeIdentity rec with
  | error e => rw [hid] at h; cases h
  | ok out => exact ⟨_, rfl⟩

def twoOrders : List DomainRecord := [order "a" "open", order "b" "open"]

theorem twoOrders_fresh : (newPartition ordersSpec).FreshBatch "import" twoOrders := by
  refine ⟨by decide, fun _ _ => Finset.notMem_empty _, fun _ _ _ _ => rfl, fun rec hrec now => ?_,
    fun rec hrec => ?_,
    by decide +kernel, fun _ _ => rfl, fun _ _ => rfl⟩
  · refine valid_of_identity ?_ now
    rcases List.mem_pair.mp hrec with rfl | rfl <;> decide +kernel
  · rcases List.mem_pair.mp hrec with rfl | rfl <;> exact ⟨by decide +kernel, by decide +kernel⟩

theorem twoOrders_room :
    ((newPartition ordersSpec).startBatch (.steady 1)).batch.part.RoomFor twoOrders :=
  ⟨by decide +kernel, by decide +kernel⟩

/-- Without a base version both records get the same version, and the fence the first one raises
turns the second away. -/
theorem unversioned_import_loses : (newPartition ordersSpec).FreshBatch "import" twoOrders ∧
    ((newPartition ordersSpec).startBatch (.steady 1)).batch.part.RoomFor twoOrders ∧
    ((newPartition ordersSpec).applyRecords (.steady 1) "import" 0 twoOrders).errs = [] ∧
    ((newPartition ordersSpec).applyRecords (.steady 1) "import" 0 twoOrders).result =
      ⟨1, 1, 1, 0⟩ := by
  refine ⟨twoOrders_fresh, twoOrders_room, ?_, ?_⟩ <;> decide +kernel

theorem versioned_import_complete :
    ApplyResult.Complete ((newPartition ordersSpec).applyRecords (.steady 1) "import" 7
      twoOrders).result 2 := by
  refine (applyRecords_complete_iff (.start : Reach Step.Any ordersSpec _) (fun _ => rfl)
    twoOrders_fresh
    (twoOrders_room)).mpr (.inr fun i rec hi j earlier hj => ?_)
  cases i with
  | zero => simp at hj
  | succ i =>
    cases i with
    | zero =>
      obtain rfl : order "b" "open" = rec := by simpa [twoOrders] using hi
      obtain ⟨rfl, rfl⟩ : j = 0 ∧ order "a" "open" = earlier := by
        cases j with
        | zero => exact ⟨rfl, by simpa [twoOrders] using hj⟩
        | succ j => simp [twoOrders] at hj
      refine ⟨by decide +kernel, fun hs => absurd hs ?_⟩
      decide +kernel
    | succ i => simp [twoOrders] at hi

end Partition

end Foundation.Hermes
