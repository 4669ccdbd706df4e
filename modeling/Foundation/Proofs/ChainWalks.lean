import Foundation.Sanity.Snapshots
import Mathlib.Data.String.Basic

/-! The three strategies of `forEachKey` against the general walk and the compaction. A shortcut is
taken on the sizes that the snapshots of the chain carry, so these have to count at least the keys
that survive; nothing else about the chain matters. -/

namespace Foundation.Hermes.IndexSnapshot

open Go DeltaChain

/-- No snapshot of the chain has a size below the number of keys that survive in it. -/
def Counted (s : IndexSnapshot) : Prop :=
  ∀ t, t <:+ s → (survivors (deltas t)).card ≠ 0 → (survivors (deltas t)).card ≤ len t

instance (s : IndexSnapshot) : Decidable (Counted s) :=
  decidable_of_iff (∀ t ∈ s.tails, (survivors (deltas t)).card ≠ 0 →
    (survivors (deltas t)).card ≤ len t)
    (by simp only [List.mem_tails, Counted])

theorem Counted.survivors_eq_empty {s t : IndexSnapshot} (h : Counted s) (ht : t <:+ s)
    (hlen : len t = 0) :
    survivors (deltas t) = ∅ := by
  by_contra hne
  have hcard : (survivors (deltas t)).card ≠ 0 := fun h0 => hne (Finset.card_eq_zero.mp h0)
  have hle := h t ht hcard
  omega

theorem Counted.mem_forEachKey {s : IndexSnapshot} (h : Counted s) (o : RangeOrder String)
    (key : String) :
    key ∈ forEachKey o s ↔ key ∈ survivors (deltas s) := by
  rcases forEachKey_cases o s with ⟨hlen, heq⟩ | ⟨top, base, rfl, hremoves, hlen, heq⟩ | heq
  · rw [heq, h.survivors_eq_empty (List.suffix_refl s) hlen]
    simp
  · -- The base is empty or stands for no key, so the top's own keys are all there are.
    have hbase : survivors (deltas base) = ∅ :=
      h.survivors_eq_empty (List.suffix_cons top base) hlen
    have hall : survivors (deltas (top :: base)) = top.adds := by
      show (top.adds ∪ survivors (deltas base)) \ top.removes = top.adds
      rw [hbase, hremoves, Finset.union_empty, Finset.sdiff_empty]
    rw [heq, o.mem, hall]
  · rw [heq, mem_walk]
    simp

theorem mem_forEachKeyReconciled (o : RangeOrder String) (s : IndexSnapshot) (key : String) :
    key ∈ forEachKeyReconciled o s ↔ key ∈ survivors (deltas s) := by
  rw [forEachKeyReconciled, mem_walk]
  simp

/-- Whatever order the maps are visited in, the walks visit the same keys, each of them once, and
the compaction keeps these keys. -/
theorem walks_agree (o o' : RangeOrder String) {s : IndexSnapshot} (h : Counted s) :
    (∀ key, key ∈ forEachKey o s ↔ key ∈ forEachKeyReconciled o' s) ∧ (forEachKey o s).Nodup ∧
      (forEachKeyReconciled o' s).Nodup ∧ ∀ key, key ∈ compactKeys s ↔
        key ∈ forEachKeyReconciled o' s := by
  refine ⟨fun key => ?_, forEachKey_nodup o s, nodup_walk o' _ _, fun key => ?_⟩
  · rw [h.mem_forEachKey, mem_forEachKeyReconciled]
  · rw [compactKeys, compact_eq_survivors, mem_forEachKeyReconciled]

/-- Two layers over a flat base: a removed key, a restated one and a new one. -/
def restated : IndexSnapshot :=
  [⟨⟨{"a", "d"}, ∅⟩, [], 4, 2⟩, ⟨⟨∅, {"b"}⟩, [], 3, 1⟩, ⟨⟨{"a", "b", "c", "e"}, ∅⟩, [], 4, 0⟩]

theorem restated_walks_agree : Counted restated ∧
    ∀ key, key ∈ forEachKey (.ascendingBy id Function.injective_id) restated ↔
      key ∈ ({"a", "c", "d", "e"} : Finset String) := by
  have hcounted : Counted restated := by decide +kernel
  have hkeys : compactKeys restated = {"a", "c", "d", "e"} := by decide +kernel
  obtain ⟨hwalks, -, -, hcompact⟩ :=
    walks_agree (.ascendingBy id Function.injective_id)
      (.ascendingBy id Function.injective_id) hcounted
  exact ⟨hcounted, fun key => by rw [hwalks, ← hcompact, hkeys]⟩

end Foundation.Hermes.IndexSnapshot
