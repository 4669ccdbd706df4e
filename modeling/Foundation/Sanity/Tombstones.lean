import Foundation.Lib.LastEntries
import Foundation.Sanity.Balance

/-! The tombstones of a partition against the mutations it has accepted so far. As long as no
listed key is tombstoned again, the order list has no repetition and a delete holds until
enough other keys have been deleted. -/

namespace Foundation.Hermes

open Go LastEntries

namespace Partition

theorem evictTombstones_order {bound : ℤ} (hpos : 0 < bound) (order : List String)
    (tombs : GoMap String TombstoneEntry) :
    (evictTombstones bound order tombs).1 = order.rtake bound.toNat := by
  induction order generalizing tombs with
  | nil => simp [evictTombstones]
  | cons oldest rest ih =>
    unfold evictTombstones
    split_ifs with h
    · simp only [List.length_cons] at h
      rw [ih, ← List.singleton_append, rtake_append (by omega)]
    · rw [rtake_of_length_le (by omega)]

theorem evictTombstones_map {bound : ℤ} (hpos : 0 < bound) (order : List String)
    (tombs : GoMap String TombstoneEntry) (key : String) :
    (evictTombstones bound order tombs).2.lookup key =
      if key ∈ order.take (order.length - bound.toNat) then none else tombs.lookup key := by
  induction order generalizing tombs with
  | nil => simp [evictTombstones]
  | cons oldest rest ih =>
    unfold evictTombstones
    split_ifs with h hmem hmem
    · rw [ih, GoMap.lookup_erase_if]
      simp only [List.length_cons] at h hmem
      rw [show rest.length + 1 - bound.toNat = rest.length - bound.toNat + 1 by omega,
        List.take_succ_cons,
        List.mem_cons] at hmem
      split_ifs with h1 h2
      · rfl
      · rfl
      · exact absurd hmem (by tauto)
    · rw [ih, GoMap.lookup_erase_if]
      simp only [List.length_cons] at h hmem
      rw [show rest.length + 1 - bound.toNat = rest.length - bound.toNat + 1 by omega,
        List.take_succ_cons,
        List.mem_cons] at hmem
      rw [if_neg fun h1 => hmem (.inr h1), if_neg fun h2 => hmem (.inl h2)]
    · rw [Nat.sub_eq_zero_of_le (by omega), List.take_zero] at hmem
      exact absurd hmem List.not_mem_nil
    · rfl

end Partition

variable {key : String}

namespace Batch

def tombBound (b : Batch) : ℕ := b.part.spec.maxTombstones.toNat

theorem tombBound_pos (b : Batch) : 0 < b.tombBound := by
  have := b.part.spec.maxTombstones_pos
  unfold tombBound
  omega

theorem bury_tombOrder_eq (b : Batch) (key source : String) (version : ℕ) :
    (b.bury key source version).part.tombOrder = (b.part.tombOrderWith key).rtake b.tombBound := by
  rw [bury_tombOrder, Partition.rememberTombstoneLocked_eq]
  exact Partition.evictTombstones_order b.part.spec.maxTombstones_pos _ _

theorem bury_tombstones_lookup (b : Batch) (key source : String) (version : ℕ) (k : String) :
    (b.bury key source version).part.tombstones.lookup k =
      if k ∈ (b.part.tombOrderWith key).take ((b.part.tombOrderWith key).length - b.tombBound) then
        none
      else if k = key then some ⟨version, source⟩ else b.part.tombstones.lookup k := by
  rw [bury_tombstones, Partition.rememberTombstoneLocked_eq]
  dsimp only
  rw [Partition.evictTombstones_map b.part.spec.maxTombstones_pos, GoMap.lookup_insert_if]
  rfl

/-- The order list has no repetition, and the tombstones are those of its keys that are not
live again. -/
structure Listed (b : Batch) : Prop where
  nodup : b.part.tombOrder.Nodup
  bounded : b.part.tombOrder.length ≤ b.tombBound
  mem_iff : ∀ key, key ∈ b.part.tombstones ↔ key ∈ b.part.tombOrder ∧ b.entry key = none

/-- A key whose tombstone may be written: not listed, or listed last and still dead. -/
def Buriable (b : Batch) (key : String) : Prop :=
  key ∈ b.part.tombOrder → key ∈ b.part.tombstones ∧ b.part.tombOrder.getLast? = some key

variable {b : Batch}

theorem Listed.congr {b' : Batch} (h : b.Listed) (hs : b'.part.spec = b.part.spec)
    (ho : b'.part.tombOrder = b.part.tombOrder) (ht : b'.part.tombstones = b.part.tombstones)
    (he : ∀ key, b'.entry key = b.entry key) : b'.Listed := by
  refine ⟨ho ▸ h.nodup, ?_, fun key => ?_⟩
  · rw [ho, tombBound, hs]
    exact h.bounded
  · rw [ho, ht, he]
    exact h.mem_iff key

theorem Listed.store (h : b.Listed) (entry : RecordEntry) : (b.store entry).Listed := by
  refine ⟨by rw [store_tombOrder]; exact h.nodup, ?_, fun key => ?_⟩
  · rw [store_tombOrder, tombBound, store_spec]
    exact h.bounded
  · rw [store_tombstones, store_tombOrder, store_entry]
    by_cases hk : key = keyOf entry.record
    · rw [if_pos hk]
      simp only [reduceCtorEq, and_false, iff_false]
      split_ifs with he
      · rw [hk]
        exact Finmap.notMem_erase_self
      · rw [h.mem_iff, hk]
        exact fun hm => he hm.2
    · rw [if_neg hk, ← h.mem_iff]
      split_ifs
      · rw [Finmap.mem_erase]
        exact ⟨fun hm => hm.2, fun hm => ⟨hk, hm⟩⟩
      · rfl

theorem Listed.tombOrderWith_cases (h : b.Listed) (hb : b.Buriable key) :
    (key ∈ b.part.tombOrder ∧ (∃ older, b.part.tombOrder = older ++ [key]) ∧
      b.part.tombOrderWith key = b.part.tombOrder) ∨
    (key ∉ b.part.tombOrder ∧ b.part.tombOrderWith key = b.part.tombOrder ++ [key]) := by
  by_cases hmem : key ∈ b.part.tombOrder
  · obtain ⟨hdead, hlast⟩ := hb hmem
    exact .inl ⟨hmem, List.getLast?_eq_some_iff.mp hlast, if_pos hdead⟩
  · exact .inr ⟨hmem, if_neg fun hdead => hmem ((h.mem_iff key).mp hdead).1⟩

theorem Listed.tombOrderWith_nodup (h : b.Listed) (hb : b.Buriable key) :
    (b.part.tombOrderWith key).Nodup := by
  rcases h.tombOrderWith_cases hb with ⟨-, -, heq⟩ | ⟨hnew, heq⟩
  · rw [heq]
    exact h.nodup
  · rw [heq, List.nodup_append]
    refine ⟨h.nodup, List.nodup_singleton key, fun a ha c hc hac => ?_⟩
    rw [List.mem_singleton] at hc
    exact hnew (hc ▸ hac ▸ ha)

theorem Listed.mem_tombOrderWith (h : b.Listed) (hb : b.Buriable key) (k : String) :
    k ∈ b.part.tombOrderWith key ↔ k ∈ b.part.tombOrder ∨ k = key := by
  rcases h.tombOrderWith_cases hb with ⟨hmem, -, heq⟩ | ⟨-, heq⟩
  · rw [heq]
    exact ⟨.inl, fun hk => hk.elim id fun hk => hk ▸ hmem⟩
  · rw [heq, List.mem_append, List.mem_singleton]

theorem Listed.bury (h : b.Listed) (hb : b.Buriable key) (source : String) (version : ℕ) :
    (b.bury key source version).Listed := by
  have hnodup := h.tombOrderWith_nodup hb
  refine ⟨by rw [bury_tombOrder_eq]; exact nodup_rtake hnodup _, ?_, fun k => ?_⟩
  · rw [bury_tombOrder_eq]
    refine (length_rtake_le _ _).trans (le_of_eq ?_)
    rw [tombBound, tombBound, bury_spec]
  · rw [Finmap.mem_iff, bury_tombOrder_eq, mem_rtake_iff hnodup, h.mem_tombOrderWith hb, bury_entry,
      bury_tombstones_lookup]
    have hold : (∃ tomb, b.part.tombstones.lookup k = some tomb) ↔ k ∈ b.part.tombOrder ∧
        b.entry k = none := by
      exact Finmap.mem_iff.symm.trans (h.mem_iff k)
    by_cases hdrop :
      k ∈ (b.part.tombOrderWith key).take ((b.part.tombOrderWith key).length - b.tombBound)
    · rw [if_pos hdrop]
      simp [hdrop]
    · rw [if_neg hdrop]
      by_cases hk : k = key
      · simp [hk, hk ▸ hdrop]
      · simp only [hk, if_false, or_false, hdrop, not_false_eq_true, and_true]
        exact hold

end Batch

/-! ### The mutations so far -/

/-- The keys other than `key` that the mutations delete. -/
def deletedBeside (key : String) (log : List AppliedMutation) : Finset String :=
  (((log.filter fun m => m.operation = .delete).map fun m => keyOf m.record).toFinset).erase key

theorem mem_deletedBeside {key k : String} {log : List AppliedMutation} :
    k ∈ deletedBeside key log ↔ k ≠ key ∧ ∃ m ∈ log, m.operation = .delete ∧
      keyOf m.record = k := by
  simp only [deletedBeside, Finset.mem_erase, List.mem_toFinset, List.mem_map, List.mem_filter,
    decide_eq_true_eq,
    and_assoc]

theorem deletedBeside_append (key : String) (log rest : List AppliedMutation) :
    deletedBeside key log ⊆ deletedBeside key (log ++ rest) := fun k hk => by
  obtain ⟨hne, m, hm, hop, hkey⟩ := mem_deletedBeside.mp hk
  exact mem_deletedBeside.mpr ⟨hne, m, List.mem_append_left _ hm, hop, hkey⟩

/-- A delete that still counts: fewer than `bound` other keys were deleted since, and its key
was not upserted at its version or above. -/
structure Standing (bound : ℕ) (del : AppliedMutation) (since : List AppliedMutation) : Prop where
  delete : del.operation = .delete
  few : (deletedBeside (keyOf del.record) since).card < bound
  unrevived : ∀ m ∈ since, m.operation = .upsert → keyOf m.record = keyOf del.record →
    m.version < del.version

theorem Standing.init {bound : ℕ} {del : AppliedMutation} {since rest : List AppliedMutation}
    (h : Standing bound del (since ++ rest)) : Standing bound del since :=
  ⟨h.delete, lt_of_le_of_lt (Finset.card_le_card (deletedBeside_append _ _ _)) h.few,
    fun m hm => h.unrevived m (List.mem_append_left _ hm)⟩

/-- No mutation brings back the key of a standing delete below its version. -/
def NotResurrected (bound : ℕ) (log : List AppliedMutation) : Prop :=
  ∀ pre del since m post, log = pre ++ del :: (since ++ m :: post) → Standing bound del since →
    m.operation = .upsert ∨ m.operation = .patch → keyOf m.record = keyOf del.record →
      del.version ≤ m.version

/-- Every standing delete has its tombstone, and only keys deleted since are listed behind it. -/
def Batch.Holds (b : Batch) (log : List AppliedMutation) : Prop :=
  ∀ pre del since, log = pre ++ del :: since → Standing b.tombBound del since →
    ∃ tomb older newer, b.part.tombstones.lookup (keyOf del.record) = some tomb ∧
      del.version ≤ tomb.version ∧
      b.part.tombOrder = older ++ keyOf del.record :: newer ∧ ∀ k ∈ newer,
        k ∈ deletedBeside (keyOf del.record) since

namespace Batch

variable {b b' : Batch} {m : AppliedMutation} {log : List AppliedMutation}

/-- The mutation writes no second tombstone for a listed key. -/
def Once (b : Batch) (m : AppliedMutation) : Prop :=
  m.operation = .delete → b.Buriable (keyOf m.record)

theorem tombstone_le {tomb : TombstoneEntry} {version : ℕ}
    (ht : b.part.tombstones.lookup key = some tomb)
    (h : b.part.blockedByNewerTombstoneLocked key version = false) : tomb.version ≤ version := by
  rw [Partition.blockedByNewerTombstoneLocked, ht] at h
  simpa using h

theorem Listed.mutates (h : b.Listed) (hm : b.Mutates m b') (honce : b.Once m) : b'.Listed := by
  cases hm with
  | store entry => exact h.store entry
  | bury source op => exact h.bury (honce op) source m.version

theorem split_concat {log pre since : List AppliedMutation} {m del : AppliedMutation}
    (h : log ++ [m] = pre ++ del :: since) : (since = [] ∧ del = m) ∨
      ∃ init, since = init ++ [m] ∧ log = pre ++ del :: init := by
  rcases List.eq_nil_or_concat since with rfl | ⟨init, last, rfl⟩
  · exact .inl ⟨rfl, (List.append_inj' h rfl).2 |> List.singleton_inj.mp |> Eq.symm⟩
  · rw [List.concat_eq_append, ← List.cons_append, ← List.append_assoc] at h
    obtain ⟨hl, hr⟩ := List.append_inj' h rfl
    exact .inr ⟨init, by rw [List.concat_eq_append, List.singleton_inj.mp hr], hl⟩

/-- A standing delete lets through only versions at or above its own. -/
theorem Holds.version_le (h : b.Holds log) (hm : b.Mutates m b') {pre since : List AppliedMutation}
    {del : AppliedMutation} (hlog : log = pre ++ del :: since) (hs : Standing b.tombBound del since)
    (hkey : keyOf m.record = keyOf del.record) (hlisted : b.Listed) : del.version ≤ m.version := by
  obtain ⟨tomb, older, newer, ht, hle, -, -⟩ := h pre del since hlog hs
  cases hm with
  | store entry op patches key version value fits =>
    have hfree := fits.unblocked
    rw [← key, hkey] at hfree
    rw [version]
    exact hle.trans (tombstone_le ht hfree)
  | bury source op deletable =>
    have hdead := ((hlisted.mem_iff _).mp (Finmap.mem_iff.mpr ⟨tomb, ht⟩)).2
    rw [← hkey] at hdead ht
    exact hle.trans (tombstone_le ht (deletable.unblocked hdead))

theorem holds_bury_self (hl : b.Listed) (hb : b.Buriable key) (source : String) (version : ℕ) :
    (b.bury key source version).part.tombstones.lookup key = some ⟨version, source⟩ ∧
      ∃ older, (b.bury key source version).part.tombOrder = older ++ [key] := by
  have hlast : ∃ older, b.part.tombOrderWith key = older ++ [key] := by
    rcases hl.tombOrderWith_cases hb with ⟨-, hlast, heq⟩ | ⟨-, heq⟩
    · rw [heq]
      exact hlast
    · exact ⟨_, heq⟩
  obtain ⟨older, holder⟩ := hlast
  obtain ⟨kept, hkept⟩ := @exists_rtake_cons _ older key [] _ b.tombBound_pos
  have hmem : key ∈ (b.part.tombOrderWith key).rtake b.tombBound := by
    rw [holder, hkept]
    exact List.mem_append_right _ List.mem_cons_self
  refine ⟨?_, kept, by rw [bury_tombOrder_eq, holder, hkept]⟩
  rw [bury_tombstones_lookup, if_neg ((mem_rtake_iff (hl.tombOrderWith_nodup hb) _ _).mp hmem).2,
    if_pos rfl]

/-- A tombstone of another key leaves one alone that has too few keys behind it. -/
theorem holds_bury_other (hl : b.Listed) {key k : String} (hb : b.Buriable key) (source : String)
    (version : ℕ) (hne : k ≠ key) {tomb : TombstoneEntry} {older newer : List String}
    {beside : Finset String} (ht : b.part.tombstones.lookup k = some tomb)
    (ho : b.part.tombOrder = older ++ k :: newer) (hnewer : ∀ x ∈ newer, x ∈ beside)
    (hkey : key ∈ beside) (hfew : beside.card < b.tombBound) :
    (b.bury key source version).part.tombstones.lookup k = some tomb ∧
      ∃ older newer, (b.bury key source version).part.tombOrder = older ++ k :: newer ∧ ∀ x ∈ newer,
        x ∈ beside := by
  have hwith : ∃ newer, b.part.tombOrderWith key = older ++ k :: newer ∧ ∀ x ∈ newer,
      x ∈ beside := by
    rcases hl.tombOrderWith_cases hb with ⟨-, -, heq⟩ | ⟨-, heq⟩
    · exact ⟨newer, heq.trans ho, hnewer⟩
    · refine ⟨newer ++ [key], by rw [heq, ho, List.append_assoc, List.cons_append], fun x hx => ?_⟩
      rcases List.mem_append.mp hx with hx | hx
      · exact hnewer x hx
      · exact List.mem_singleton.mp hx ▸ hkey
  obtain ⟨newer, hwith, hnewer⟩ := hwith
  have hnodup := hl.tombOrderWith_nodup hb
  have hlen : newer.length < b.tombBound := by
    have hsub : newer.Nodup := by
      rw [hwith] at hnodup
      exact (List.nodup_cons.mp (List.nodup_append.mp hnodup).2.1).2
    rw [← List.toFinset_card_of_nodup hsub]
    exact lt_of_le_of_lt (Finset.card_le_card fun x hx => hnewer x (List.mem_toFinset.mp hx)) hfew
  obtain ⟨kept, hkept⟩ := exists_rtake_cons older k hlen
  have hmem : k ∈ (b.part.tombOrderWith key).rtake b.tombBound := by
    rw [hwith, hkept]
    exact List.mem_append_right _ List.mem_cons_self
  refine ⟨?_, kept, newer, by rw [bury_tombOrder_eq, hwith, hkept], hnewer⟩
  rw [bury_tombstones_lookup, if_neg ((mem_rtake_iff hnodup _ _).mp hmem).2, if_neg hne, ht]

theorem Mutates.tombBound_eq (hm : b.Mutates m b') : b'.tombBound = b.tombBound := by
  unfold tombBound
  rw [hm.spec_eq]

theorem Holds.mutates (h : b.Holds log) (hl : b.Listed) (hm : b.Mutates m b') (honce : b.Once m) :
    b'.Holds (log ++ [m]) := by
  intro pre del since hlog hs
  rw [hm.tombBound_eq] at hs
  rcases split_concat hlog with ⟨rfl, rfl⟩ | ⟨init, rfl, hinit⟩
  · cases hm with
    | store entry op => rcases op with op | op <;> cases op.symm.trans hs.delete
    | bury source op =>
      obtain ⟨ht, older, ho⟩ := holds_bury_self hl (honce op) source del.version
      exact ⟨_, older, [], ht, le_rfl, ho, fun k hk => absurd hk List.not_mem_nil⟩
  · have hle := fun hkey => h.version_le hm hinit hs.init hkey hl
    obtain ⟨tomb, older, newer, ht, hver, ho, hnewer⟩ := h pre del init hinit hs.init
    have hnewer' : ∀ k ∈ newer, k ∈ deletedBeside (keyOf del.record) (init ++ [m]) :=
      fun k hk => deletedBeside_append _ _ _ (hnewer k hk)
    cases hm with
    | store entry op patches key version value fits =>
      -- The key is dead, so only an upsert could take it, and only at a version it may not have.
      have hne : keyOf del.record ≠ keyOf entry.record := fun heq => by
        have hdead := ((hl.mem_iff _).mp (Finmap.mem_iff.mpr ⟨tomb, ht⟩)).2
        rcases op with op | op
        · exact absurd (hle (key.trans heq.symm))
            (not_le.mpr (hs.unrevived m (by simp) op (key.trans heq.symm)))
        · obtain ⟨old, -, -, hold, -⟩ := patches op
          rw [← heq, hdead] at hold
          cases hold
      refine ⟨tomb, older, newer, ?_, hver, by rw [store_tombOrder, ho], hnewer'⟩
      rw [store_tombstones]
      split_ifs
      · rw [GoMap.lookup_erase_if, if_neg hne, ht]
      · exact ht
    | bury source op deletable =>
      by_cases heq : keyOf m.record = keyOf del.record
      · obtain ⟨ht', older', ho'⟩ := holds_bury_self hl (honce op) source m.version
        rw [← heq]
        exact ⟨_, older', [], ht', hle heq, ho', fun k hk => absurd hk List.not_mem_nil⟩
      · have hkey : keyOf m.record ∈ deletedBeside (keyOf del.record) (init ++ [m]) :=
          mem_deletedBeside.mpr ⟨heq, m, by simp, op, rfl⟩
        obtain ⟨ht', older', newer', ho', hn'⟩ :=
          holds_bury_other hl (honce op) source m.version (Ne.symm heq) ht ho
          hnewer' hkey hs.few
        exact ⟨tomb, older', newer', ht', hver, ho', hn'⟩

theorem NotResurrected.mutates (h : NotResurrected b.tombBound log) (hh : b.Holds log)
    (hl : b.Listed) (hm : b.Mutates m b') : NotResurrected b'.tombBound (log ++ [m]) := by
  intro pre del since x post hlog hs hop hkey
  rw [hm.tombBound_eq] at hs
  rcases List.eq_nil_or_concat post with rfl | ⟨init, last, rfl⟩
  · rw [← List.cons_append, ← List.append_assoc] at hlog
    obtain ⟨hl', hr⟩ := List.append_inj' hlog rfl
    obtain rfl := List.singleton_inj.mp hr
    exact hh.version_le hm hl' hs hkey hl
  · refine h pre del since x init ?_ hs hop hkey
    have hassoc : pre ++ del :: (since ++ x :: init.concat last) =
        (pre ++ del :: (since ++ x :: init)) ++ [last] := by
      simp
    exact (List.append_inj' (hlog.trans hassoc) rfl).1

end Batch

end Foundation.Hermes
