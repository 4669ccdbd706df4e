import Foundation.Spec.Indexes

/-! What an index snapshot is good for. It covers a set of keys, each with the version it was
last listed at, when every walk of the chain finds them; it may list stale keys besides. -/

namespace Foundation.Hermes

open Go DeltaChain

variable {s : IndexSnapshot} {key : String}

namespace IndexSnapshot

/-- What a layer makes of the keys its base covers: an added key is last listed with its
version, any other is one of the base's, and none is removed. -/
structure Extends (top : IndexLayer) (before after : GoMap String ℕ) : Prop where
  listed : ∀ x ∈ top.order, x.key ∈ top.adds
  kept : ∀ key ∈ after.keys, key ∉ top.removes
  added : ∀ key version, after.lookup key = some version → key ∈ top.adds →
    top.order.reverse.find? (·.key == key) = some ⟨key, version⟩
  based : ∀ key version, after.lookup key = some version → key ∉ top.adds →
    before.lookup key = some version

def Covers : IndexSnapshot → GoMap String ℕ → Prop
  | [], keys => keys = ∅
  | top :: base, keys =>
    keys.keys.card ≤ top.size ∧ ∃ before, Covers base before ∧ Extends top before keys

def Within (fewer more : GoMap String ℕ) : Prop :=
  ∀ key version, fewer.lookup key = some version → more.lookup key = some version

theorem Within.keys_subset {fewer more : GoMap String ℕ} (h : Within fewer more) :
    fewer.keys ⊆ more.keys :=
  fun key hk => by
    obtain ⟨version, hv⟩ := (GoMap.mem_keys_iff _ _).mp hk
    exact (GoMap.mem_keys_iff _ _).mpr ⟨version, h key version hv⟩

theorem Covers.mono {fewer more : GoMap String ℕ} (h : Covers s more) (hle : Within fewer more) :
    Covers s fewer := by
  cases s with
  | nil =>
    refine Finmap.ext_lookup fun key => ?_
    rw [Finmap.lookup_empty]
    cases hl : fewer.lookup key with
    | none => rfl
    | some version =>
      have hmore := hle key version hl
      rw [show more = ∅ from h, Finmap.lookup_empty] at hmore
      cases hmore
  | cons top base =>
    obtain ⟨hsize, before, hbase, hext⟩ := h
    exact ⟨(Finset.card_le_card hle.keys_subset).trans hsize, before, hbase, hext.listed,
      fun key hk => hext.kept key (hle.keys_subset hk),
      fun key version hl => hext.added key version (hle key version hl),
      fun key version hl => hext.based key version (hle key version hl)⟩

theorem covers_empty : Covers emptyIndex ∅ :=
  ⟨Nat.zero_le _, ∅, rfl, fun x hx => absurd hx List.not_mem_nil, fun key hk => (by simp at hk),
    fun key version hl => (by simp at hl), fun key version hl => (by simp at hl)⟩

theorem Covers.card_le {keys : GoMap String ℕ} (h : Covers s keys) : keys.keys.card ≤ len s := by
  cases s with
  | nil =>
    rw [show keys = ∅ from h]
    exact Nat.zero_le _
  | cons top base => exact h.1

theorem Covers.eq_empty {keys : GoMap String ℕ} (h : Covers s keys) (hlen : len s = 0)
    (key : String) : key ∉ keys.keys := by
  have hcard := h.card_le
  rw [hlen, Nat.le_zero, Finset.card_eq_zero] at hcard
  rw [hcard]
  exact Finset.notMem_empty key

theorem Covers.survives {keys : GoMap String ℕ} (h : Covers s keys) (hk : key ∈ keys.keys) :
    key ∈ survivors (deltas s) := by
  induction s generalizing keys with
  | nil =>
    rw [show keys = ∅ from h] at hk
    exact absurd hk (by simp)
  | cons top base ih =>
    obtain ⟨-, before, hbase, hext⟩ := h
    obtain ⟨version, hv⟩ := (GoMap.mem_keys_iff _ _).mp hk
    rw [deltas, List.map_cons, survivors, Finset.mem_sdiff, Finset.mem_union]
    refine ⟨?_, hext.kept key hk⟩
    by_cases hadd : key ∈ top.adds
    · exact .inl hadd
    · exact .inr (ih hbase ((GoMap.mem_keys_iff _ _).mpr ⟨version, hext.based key version hv hadd⟩))

theorem Covers.newest {keys : GoMap String ℕ} (h : Covers s keys) {version : ℕ}
    (hk : keys.lookup key = some version) :
    (forEachOrderDesc s).find? (·.key == key) = some ⟨key, version⟩ := by
  induction s generalizing keys with
  | nil =>
    rw [show keys = ∅ from h, Finmap.lookup_empty] at hk
    cases hk
  | cons top base ih =>
    obtain ⟨-, before, hbase, hext⟩ := h
    rw [forEachOrderDesc, List.flatMap_cons, ← forEachOrderDesc, List.find?_append]
    by_cases hadd : key ∈ top.adds
    · rw [hext.added key version hk hadd]
      rfl
    · have hnone : top.order.reverse.find? (·.key == key) = none := by
        rw [List.find?_eq_none]
        intro x hx heq
        exact hadd (beq_iff_eq.mp heq ▸ hext.listed x (List.mem_reverse.mp hx))
      rw [hnone, Option.none_or]
      exact ih hbase (hext.based key version hk hadd)

/-! ### Walks -/

theorem deltas_getLast (top : IndexLayer) (base : IndexSnapshot) :
    deltas ((top :: base).dropLast) ++ [((top :: base).getLast (by simp)).toDelta] =
      deltas (top :: base) := by
  rw [deltas, deltas, ← List.map_singleton, ← List.map_append, List.dropLast_append_getLast]

/-- Unless a shortcut is taken, a walk reports the keys the chain stands for. -/
theorem forEachKey_cases (o : RangeOrder String) (s : IndexSnapshot) :
    (len s = 0 ∧ forEachKey o s = []) ∨
    (∃ top base, s = top :: base ∧ top.removes = ∅ ∧ len base = 0 ∧
      forEachKey o s = o.visit top.adds) ∨
    forEachKey o s = walk o ∅ (deltas s) := by
  cases s with
  | nil => exact .inl ⟨rfl, rfl⟩
  | cons top base =>
    unfold forEachKey
    dsimp only
    split_ifs with h0 hflat hterm
    · exact .inl ⟨h0, rfl⟩
    · exact .inr (.inl ⟨top, base, rfl, hflat.1, hflat.2, rfl⟩)
    · exact .inr (.inr rfl)
    · refine .inr (.inr ?_)
      rw [not_or, not_ne_iff] at hterm
      rw [walkSplit_eq o _ _ hterm.1, deltas_getLast]

theorem forEachKey_nodup (o : RangeOrder String) (s : IndexSnapshot) : (forEachKey o s).Nodup := by
  rcases forEachKey_cases o s with ⟨-, heq⟩ | ⟨top, base, -, -, -, heq⟩ | heq
  · rw [heq]
    exact List.nodup_nil
  · rw [heq]
    exact o.nodup _
  · rw [heq]
    exact nodup_walk o _ _

theorem Covers.mem_forEachKey {keys : GoMap String ℕ} (h : Covers s keys) (o : RangeOrder String)
    (hk : key ∈ keys.keys) : key ∈ forEachKey o s := by
  rcases forEachKey_cases o s with ⟨hlen, -⟩ | ⟨top, base, rfl, -, hlen, heq⟩ | heq
  · exact absurd hk (h.eq_empty hlen key)
  · obtain ⟨-, before, hbase, hext⟩ := h
    obtain ⟨version, hv⟩ := (GoMap.mem_keys_iff _ _).mp hk
    rw [heq, o.mem]
    by_contra hadd
    exact hbase.eq_empty hlen key ((GoMap.mem_keys_iff _ _).mpr ⟨version,
      hext.based key version hv hadd⟩)
  · rw [heq, mem_walk]
    exact ⟨Finset.notMem_empty key, h.survives hk⟩

/-! ### Compaction -/

theorem newestEntries_key {keys : Finset String} {seen : Finset String} {l : List RecordOrderEntry}
    {x : RecordOrderEntry} (h : x ∈ newestEntries keys seen l) : x ∈ l ∧ x.key ∈ keys := by
  induction l generalizing seen with
  | nil => exact absurd h List.not_mem_nil
  | cons entry rest ih =>
    unfold newestEntries at h
    split_ifs at h with hskip
    · exact ⟨List.mem_cons_of_mem _ (ih h).1, (ih h).2⟩
    · rw [not_or, not_not] at hskip
      rcases List.mem_cons.mp h with rfl | h
      · exact ⟨List.mem_cons_self, hskip.1⟩
      · exact ⟨List.mem_cons_of_mem _ (ih h).1, (ih h).2⟩

theorem newestEntries_sublist (keys seen : Finset String) (l : List RecordOrderEntry) :
    (newestEntries keys seen l).Sublist l := by
  induction l generalizing seen with
  | nil => exact List.Sublist.refl _
  | cons entry rest ih =>
    unfold newestEntries
    split_ifs
    · exact (ih seen).cons entry
    · exact (ih _).cons_cons entry

theorem find_newestEntries {keys seen : Finset String} (hk : key ∈ keys) (hs : key ∉ seen)
    (l : List RecordOrderEntry) :
    (newestEntries keys seen l).find? (·.key == key) = l.find? (·.key == key) := by
  induction l generalizing seen with
  | nil => rfl
  | cons entry rest ih =>
    unfold newestEntries
    by_cases heq : entry.key = key
    · rw [if_neg (by rw [heq]; simp [hk, hs]), List.find?_cons, List.find?_cons]
      simp [heq]
    · have hne : (entry.key == key) = false := beq_eq_false_iff_ne.mpr heq
      rw [List.find?_cons (a := entry), hne]
      split_ifs
      · exact ih hs
      · rw [List.find?_cons, hne]
        exact ih (by simp [Finset.mem_insert, Ne.symm heq, hs])

theorem Covers.compact {keys : GoMap String ℕ} (h : Covers s keys) :
    Covers (compactIndexSnapshot s) keys := by
  unfold compactIndexSnapshot
  split_ifs
  · exact h
  have hsub : keys.keys ⊆ compactKeys s := fun key hk => by
    rw [compactKeys, compact_eq_survivors]
    exact h.survives hk
  refine ⟨Finset.card_le_card hsub, ∅, rfl, fun x hx => ?_, fun key _ => Finset.notMem_empty key,
    fun key version hl _ => ?_, fun key version hl hadd => ?_⟩
  · exact (newestEntries_key (List.mem_reverse.mp hx)).2
  · have hk : key ∈ compactKeys s := hsub ((GoMap.mem_keys_iff _ _).mpr ⟨version, hl⟩)
    rw [compactOrderEntries, List.reverse_reverse, find_newestEntries hk (Finset.notMem_empty key)]
    exact h.newest hl
  · exact absurd (hsub ((GoMap.mem_keys_iff _ _).mpr ⟨version, hl⟩)) hadd

end IndexSnapshot

/-! ### Changes collected by a batch -/

open IndexSnapshot

/-- What a change makes of the keys its snapshot covers, and the size it will be published with. -/
structure IndexChange.Turns (c : IndexChange) (old : ℕ) (before after : GoMap String ℕ) : Prop where
  live : ∀ key ∈ c.adds, key ∈ after.keys
  kept : ∀ key ∈ after.keys, key ∉ c.removes
  added : ∀ key version, after.lookup key = some version → key ∈ c.adds →
    c.order.reverse.find? (·.key == key) = some ⟨key, version⟩
  based : ∀ key version, after.lookup key = some version → key ∉ c.adds →
    before.lookup key = some version
  size : (after.keys.card : ℤ) ≤ old + c.delta

namespace IndexChange.Turns

variable {c : IndexChange} {old : ℕ} {before after : GoMap String ℕ}

theorem start {keys : GoMap String ℕ} (h : keys.keys.card ≤ old) : Turns {} old keys keys :=
  ⟨fun key hk => absurd hk (Finset.notMem_empty key), fun key _ => Finset.notMem_empty key,
    fun key version _ hk => absurd hk (Finset.notMem_empty key),
    fun key version hl _ => hl, by simpa using h⟩

theorem remove (h : c.Turns old before after) (hk : key ∈ after.keys) :
    (c.remove key).Turns old before (after.erase key) := by
  have hcard : ((after.erase key).keys.card : ℤ) = after.keys.card - 1 := by
    rw [Finmap.keys_erase, Finset.card_erase_of_mem hk,
      Nat.cast_sub (Finset.card_pos.mpr ⟨key, hk⟩)]
    rfl
  have hsize := h.size
  have hold : ∀ {k version}, (after.erase key).lookup k = some version → k ≠ key ∧
      after.lookup k = some version :=
    fun {k version} hl => by
      rw [GoMap.lookup_erase_if] at hl
      split_ifs at hl with hne
      exact ⟨hne, hl⟩
  have hmem : ∀ {k}, k ∈ (after.erase key).keys → k ≠ key ∧ k ∈ after.keys := fun {k} hm => by
    rwa [Finmap.keys_erase, Finset.mem_erase] at hm
  unfold IndexChange.remove
  split_ifs with hadd hrem
  · refine ⟨fun k hm => ?_, fun k hm => h.kept k (hmem hm).2, fun k version hl hm => ?_,
      fun k version hl hm => ?_, ?_⟩
    · rw [Finmap.keys_erase, Finset.mem_erase]
      exact ⟨(Finset.mem_erase.mp hm).1, h.live k (Finset.mem_erase.mp hm).2⟩
    · exact h.added k version (hold hl).2 (Finset.mem_erase.mp hm).2
    · exact h.based k version (hold hl).2 fun hin => hm (Finset.mem_erase.mpr ⟨(hold hl).1, hin⟩)
    · dsimp only
      omega
  · exact absurd hrem (h.kept key hk)
  · refine ⟨fun k hm => ?_, fun k hm hrem => ?_,
      fun k version hl hm => h.added k version (hold hl).2 hm,
      fun k version hl hm => h.based k version (hold hl).2 hm, ?_⟩
    · rw [Finmap.keys_erase, Finset.mem_erase]
      exact ⟨fun heq => hadd (heq ▸ hm), h.live k hm⟩
    · rcases Finset.mem_insert.mp hrem with heq | hrem
      · exact (hmem hm).1 heq
      · exact h.kept k (hmem hm).2 hrem
    · dsimp only
      omega

theorem add (h : c.Turns old before after) (hk : key ∉ after.keys) (version : ℕ) :
    (c.add ⟨key, version⟩).Turns old before (after.insert key version) := by
  have hcard : ((after.insert key version).keys.card : ℤ) = after.keys.card + 1 := by
    rw [GoMap.keys_insert, Finset.card_insert_of_notMem hk]
    rfl
  have hnew : key ∉ c.adds := fun hadd => hk (h.live key hadd)
  have hsize := h.size
  refine ⟨fun k hm => ?_, fun k hm hrem => ?_, fun k v hl hm => ?_, fun k v hl hm => ?_, ?_⟩
  · rw [GoMap.keys_insert, Finset.mem_insert]
    exact (Finset.mem_insert.mp hm).imp id (h.live k)
  · obtain ⟨hne, hrem⟩ := Finset.mem_erase.mp hrem
    rw [GoMap.keys_insert, Finset.mem_insert] at hm
    exact h.kept k (hm.resolve_left hne) hrem
  · rw [GoMap.lookup_insert_if] at hl
    dsimp only [IndexChange.add]
    rw [List.reverse_append, List.reverse_singleton, List.singleton_append, List.find?_cons]
    split_ifs at hl with heq
    · obtain rfl := Option.some_inj.mp hl
      simp [heq]
    · have hne : (key == k) = false := beq_eq_false_iff_ne.mpr (Ne.symm heq)
      simp only [hne]
      exact h.added k v hl ((Finset.mem_insert.mp hm).resolve_left heq)
  · obtain ⟨hne, hm⟩ := not_or.mp fun hor => hm (Finset.mem_insert.mpr hor)
    rw [GoMap.lookup_insert_if, if_neg hne] at hl
    exact h.based k v hl hm
  · dsimp only [IndexChange.add]
    rw [if_pos (.inr hnew)]
    omega

/-- A published change covers what it turned the covered keys into. -/
theorem covers (h : c.Turns (len s) before after) (hs : Covers s before) :
    Covers (publishCell s c) after := by
  refine Covers.compact ⟨?_, before, hs, fun x hx => ?_, h.kept,
    fun key version hl hadd => ?_, h.based⟩
  · have hsize := h.size
    dsimp only [layer]
    omega
  · exact of_decide_eq_true (List.mem_filter.mp hx).2
  · dsimp only [layer] at hadd ⊢
    rw [← List.filter_reverse, List.find?_filter]
    refine Eq.trans (congrFun (congrArg _ (funext fun x => ?_)) _) (h.added key version hl hadd)
    by_cases heq : x.key = key
    · simp [heq, hadd]
    · simp [beq_eq_false_iff_ne.mpr heq]

/-- A change that only removes may be dropped. -/
theorem within (h : c.Turns old before after) (hadds : c.adds = ∅) : Within after before :=
  fun key version hl => h.based key version hl (by rw [hadds]; exact Finset.notMem_empty key)

end IndexChange.Turns

end Foundation.Hermes
