import Foundation.Spec.LatticeMaplet

/-! Lattice maplets never under-report. A table holds for each class the join of what was inserted
for its keys. -/

namespace Foundation.LatticeMaplet

open Cuckoo

variable {bits : ℕ}

abbrev Op := List UInt8 × UInt8

/-- The fingerprint and the pair of buckets of a key. -/
def classOf (bits : ℕ) (key : List UInt8) : ℕ × Sym2 (BitVec bits) :=
  (scheme bits).cls (fp (mapletHash64 key)) (firstBucket bits (mapletHash64 key))

/-- The largest value that was inserted for a class, if any was. -/
def IsJoin (bits : ℕ) (ok : List Op) (c : ℕ × Sym2 (BitVec bits)) : Option ℕ → Prop
  | none => ∀ op ∈ ok, classOf bits op.1 ≠ c
  | some x =>
    (∃ op ∈ ok, classOf bits op.1 = c ∧ op.2.toNat = x) ∧ ∀ op ∈ ok, classOf bits op.1 = c →
      op.2.toNat ≤ x

variable {ok : List Op} {c : ℕ × Sym2 (BitVec bits)} {key : List UInt8} {val : UInt8}

theorem IsJoin.of_ne {x : Option ℕ} (h : IsJoin bits ok c x) (hne : classOf bits key ≠ c) :
    IsJoin bits ((key, val) :: ok) c x := by
  cases x with
  | none => exact List.forall_mem_cons.mpr ⟨hne, h⟩
  | some x =>
    obtain ⟨⟨op, hop, hclass⟩, hle⟩ := h
    exact ⟨⟨op, List.mem_cons_of_mem _ hop, hclass⟩,
      List.forall_mem_cons.mpr ⟨fun heq => absurd heq hne, hle⟩⟩

theorem IsJoin.first (h : IsJoin bits ok (classOf bits key) none) :
    IsJoin bits ((key, val) :: ok) (classOf bits key) (some val.toNat) :=
  ⟨⟨_, List.mem_cons_self, rfl, rfl⟩,
    List.forall_mem_cons.mpr ⟨fun _ => le_rfl, fun op hop heq => absurd heq (h op hop)⟩⟩

theorem IsJoin.join {x : ℕ} (h : IsJoin bits ok (classOf bits key) (some x)) :
    IsJoin bits ((key, val) :: ok) (classOf bits key) (some (latticeJoin x val.toNat)) := by
  obtain ⟨⟨op, hop, hclass, hval⟩, hle⟩ := h
  rw [latticeJoin]
  split_ifs with hlt
  · exact ⟨⟨op, List.mem_cons_of_mem _ hop, hclass, hval⟩,
      List.forall_mem_cons.mpr ⟨fun _ => hlt.le, hle⟩⟩
  · exact ⟨⟨_, List.mem_cons_self, rfl, rfl⟩,
      List.forall_mem_cons.mpr ⟨fun _ => le_rfl,
      fun op hop heq => (hle op hop heq).trans (not_lt.mp hlt)⟩⟩

/-! ### One table -/

/-- The table after inserts of which those in `ok` succeeded. -/
structure Joined (m : Maplet bits) (ok : List Op) : Prop where
  values : ∃ vals, Holds 4 hash16 m.buckets vals ∧ ∀ c, IsJoin bits ok c (vals c)
  count : m.count = ((scheme bits).contents m.buckets).card

theorem Joined.empty (maxCount : ℕ) : Joined ({ maxCount } : Maplet bits) [] := by
  refine ⟨⟨fun _ => none, Holds.empty 4 hash16, fun c op hop => absurd hop List.not_mem_nil⟩, ?_⟩
  rw [Scheme.card_contents]
  simp [scheme, packed]

variable {m : Maplet bits} {s : Scalable}

theorem Joined.lookup (h : Joined m ok) (key : List UInt8) :
    IsJoin bits ok (classOf bits key) (m.lookup key) := by
  obtain ⟨vals, hvals, hjoin⟩ := h.values
  rw [Maplet.lookup, scheme, hvals.lookup]
  exact hjoin _

theorem insert_cases (m : Maplet bits) (key : List UInt8) (val : UInt8) :
    (∃ e, m.insert key val = (some e, m)) ∨
    ∃ out,
      (scheme bits).Upserted m.buckets (fp (mapletHash64 key)) (firstBucket bits (mapletHash64 key))
        (pack 4 (fp (mapletHash64 key)) val.toNat)
        (fun slot => pack 4 (fp (mapletHash64 key)) (latticeJoin (value 4 slot) val.toNat)) out ∧
          val.toNat < 2 ^ 4 ∧
      (m.insert key val).1.isNone = !(out.1 = .refused || out.1 = .cycled) ∧
      (m.insert key val).2 =
        { m with buckets := out.2, count := m.count + if out.1 = .added then 1 else 0 } := by
  rw [Maplet.insert]
  split_ifs with hlarge
  · exact .inl ⟨_, rfl⟩
  · refine .inr ⟨_, Scheme.upserted (xorshiftWalk bits id) (fun _ => rfl) latticeMaxCuckooKicks
      (m.count < m.maxCount)
      (mapletHash64 key ||| 1) _ (pack_shiftRight 4 _ _), ?_, ?_⟩
    · rw [latticeMaxValue] at hlarge
      omega
    · dsimp only
      generalize (scheme bits).upsert _ _ _ _ _ _ _ _ _ = out
      obtain ⟨outcome, t⟩ := out
      cases outcome <;> simp

theorem Joined.insert (h : Joined m ok) (key : List UInt8) (val : UInt8) :
    Joined (m.insert key val).2 (if (m.insert key val).1.isNone then (key, val) :: ok else ok) := by
  obtain ⟨e, he⟩ | ⟨out, ho, hval, hok, hm⟩ := insert_cases m key val
  · rw [he]
    exact h
  have hf : fp (mapletHash64 key) ≠ 0 := fingerprint_ne_zero 12 _
  rw [hok, hm]
  refine ⟨?_, ?_⟩
  · obtain ⟨vals, hvals, hjoin⟩ := h.values
    have hsmall (y : ℕ) (hy : y < 2 ^ 4) : latticeJoin y val.toNat < 2 ^ 4 := by
      rw [latticeJoin]
      split_ifs <;> assumption
    obtain ⟨y, hy, hout, hnew⟩ | ⟨hnone, hout, hnew⟩ | ⟨hout, hsame⟩ :=
      hvals.upserted ho hf hval hsmall
    · have hold : IsJoin bits ok (classOf bits key) (some y) := hy ▸ hjoin (classOf bits key)
      refine ⟨_, hnew, (Function.forall_update_iff vals fun c x => IsJoin bits _ c x).mpr ⟨?_,
        fun c hc => ?_⟩⟩
      · rw [hout]
        exact hold.join
      · rw [hout]
        exact (hjoin c).of_ne hc.symm
    · have hold : IsJoin bits ok (classOf bits key) none := hnone ▸ hjoin (classOf bits key)
      refine ⟨_, hnew, (Function.forall_update_iff vals fun c x => IsJoin bits _ c x).mpr ⟨?_,
        fun c hc => ?_⟩⟩
      · rw [hout]
        exact hold.first
      · rw [hout]
        exact (hjoin c).of_ne hc.symm
    · refine ⟨vals, hsame ▸ hvals, ?_⟩
      obtain hout | hout := hout <;> simpa [hout] using hjoin
  · rw [h.count]
    exact (ho.card (pack_ne_zero hf 4 _) fun _ _ _ => pack_ne_zero hf 4 _).symm

theorem insert_failed (h : (m.insert key val).1 ≠ none) :
    (m.insert key val).2.buckets = m.buckets := by
  obtain ⟨e, he⟩ | ⟨out, ho, -, hok, hm⟩ := insert_cases m key val
  · rw [he]
  · rw [hm]
    refine ho.unchanged ?_
    rw [Ne, ← Option.isNone_iff_eq_none, hok] at h
    exact or_iff_not_imp_left.mpr (by simpa using h)

/-- The table after a list of inserts, and those that succeeded. -/
def Maplet.insertAll (m : Maplet bits) (ops : List Op) : Maplet bits × List Op :=
  runLog (fun m op => ((m.insert op.1 op.2).1.isNone, (m.insert op.1 op.2).2)) m ops

/-! ### The layers -/

theorem newLatticeMaplet_joined {n : ℤ} {layer : Σ bits, Maplet bits}
    (h : newLatticeMaplet n = some layer) :
    Joined layer.2 [] := by
  obtain ⟨bits, -, rfl⟩ := Option.map_eq_some_iff.mp h
  exact Joined.empty _

/-- Every insert that succeeded is among those of one of the layers. -/
structure Layered (s : Scalable) (ok : List Op) : Prop where
  last : ∃ served, Joined s.last.2 served
  served : ∀ op ∈ ok, ∃ layer ∈ s.last :: s.older, ∃ served, Joined layer.2 served ∧ op ∈ served

theorem foldl_best {vals : List ℕ} {v : ℕ} (hv : v ∈ vals) (best : Option ℕ) :
    ∃ w, vals.foldl (fun best val => some (if val > best.getD 0 then val else best.getD 0)) best =
      some w ∧ v ≤ w := by
  have hle (vals : List ℕ) (x : ℕ) :
      ∃ w, vals.foldl (fun best val => some (if val > best.getD 0 then val else best.getD 0))
        (some x) = some w ∧ x ≤ w := by
    induction vals generalizing x with
    | nil => exact ⟨x, rfl, le_rfl⟩
    | cons y rest ih =>
      obtain ⟨w, hw, hxw⟩ := ih (if y > x then y else x)
      refine ⟨w, hw, le_trans ?_ hxw⟩
      split_ifs with hlt
      · exact hlt.le
      · exact le_rfl
  induction vals generalizing best with
  | nil => cases hv
  | cons y rest ih =>
    rw [List.foldl_cons]
    obtain rfl | hv := List.mem_cons.mp hv
    · obtain ⟨w, hw, hxw⟩ := hle rest (if v > best.getD 0 then v else best.getD 0)
      refine ⟨w, hw, le_trans ?_ hxw⟩
      split_ifs with hlt
      · exact le_rfl
      · exact not_lt.mp hlt
    · exact ih hv _

theorem Joined.found (h : Joined m ok) {op : Op} (hop : op ∈ ok) :
    ∃ w, m.lookup op.1 = some w ∧ op.2.toNat ≤ w := by
  have hjoin := h.lookup op.1
  cases hlookup : m.lookup op.1 with
  | none =>
    rw [hlookup] at hjoin
    exact absurd rfl (hjoin op hop)
  | some w =>
    rw [hlookup] at hjoin
    exact ⟨w, rfl, hjoin.2 op hop rfl⟩

theorem Layered.found (h : Layered s ok) {op : Op} (hop : op ∈ ok) :
    ∃ w, s.lookup op.1 = some w ∧ op.2.toNat ≤ w := by
  obtain ⟨layer, hlayer, served, hjoined, hmem⟩ := h.served op hop
  obtain ⟨v, hv, hle⟩ := hjoined.found hmem
  have hmem : v ∈ (s.last :: s.older).filterMap fun layer => layer.2.lookup op.1 :=
    List.mem_filterMap.mpr ⟨layer, hlayer, hv⟩
  obtain ⟨w, hw, hvw⟩ := foldl_best hmem none
  exact ⟨w, hw, hle.trans hvw⟩

theorem Layered.insert (h : Layered s ok) {key : List UInt8} {val : UInt8}
    {out : Option String × Scalable} (hout : s.insert key val = some out) :
    Layered out.2 (if out.1 = none then (key, val) :: ok else ok) := by
  -- The last layer takes the insert, or stays as it was.
  have hlast {served : List Op} (hj : Joined s.last.2 served) := hj.insert key val
  have holder {op : Op} (hop : op ∈ ok) {last : Maplet s.last.1}
      (hkeep : ∀ served, Joined s.last.2 served → op ∈ served → ∃ served', Joined last served' ∧
        op ∈ served') :
      ∃ layer ∈ (⟨s.last.1, last⟩ : Σ bits, Maplet bits) :: s.older, ∃ served,
        Joined layer.2 served ∧ op ∈ served := by
    obtain ⟨layer, hlayer, served, hj, hmem⟩ := h.served op hop
    obtain rfl | hlayer := List.mem_cons.mp hlayer
    · exact ⟨_, List.mem_cons_self, hkeep served hj hmem⟩
    · exact ⟨layer, List.mem_cons_of_mem _ hlayer, served, hj, hmem⟩
  obtain ⟨served₀, hserved₀⟩ := h.last
  rw [Scalable.insert] at hout
  dsimp only at hout
  split_ifs at hout with hok
  · obtain rfl := Option.some.inj hout
    have hnew {served : List Op} (hj : Joined s.last.2 served) := hlast hj
    simp only [hok, Option.isNone_none, if_true] at hnew
    refine ⟨⟨_, hnew hserved₀⟩, List.forall_mem_cons.mpr ⟨?_, fun op hop => ?_⟩⟩
    · exact ⟨_, List.mem_cons_self, _, hnew hserved₀, List.mem_cons_self⟩
    · exact holder hop fun served hj hmem => ⟨_, hnew hj, List.mem_cons_of_mem _ hmem⟩
  · have hsame {served : List Op} (hj : Joined s.last.2 served) := hlast hj
    simp only [Option.isNone_iff_eq_none, hok, if_false] at hsame
    obtain ⟨layer, hlayer, rfl⟩ := Option.map_eq_some_iff.mp hout
    have hnext := (newLatticeMaplet_joined hlayer).insert key val
    by_cases hadded : (layer.2.insert key val).1 = none
    · simp only [hadded, Option.isNone_none, if_true] at hnext ⊢
      refine ⟨⟨_, hnext⟩, ?_⟩
      refine List.forall_mem_cons.mpr ⟨⟨_, List.mem_cons_self, _, hnext, List.mem_cons_self⟩,
        fun op hop => ?_⟩
      obtain ⟨old, hold, hserved⟩ := holder hop fun served hj hmem => ⟨_, hsame hj, hmem⟩
      exact ⟨old, List.mem_cons_of_mem _ hold, hserved⟩
    · simp only [hadded, if_false]
      refine ⟨⟨_, hsame hserved₀⟩, ?_⟩
      exact fun op hop => holder hop fun served hj hmem => ⟨_, hsame hj, hmem⟩

def Scalable.insertAll (s : Scalable) (ops : List Op) : Option (Scalable × List Op) :=
  ops.foldlM (fun acc op => (acc.1.insert op.1 op.2).map fun out => (out.2, if out.1 = none then
    op :: acc.2 else acc.2))
    (s, [])

theorem layered_insertAll (h : Layered s []) {ops : List Op} {out : Scalable × List Op}
    (hout : s.insertAll ops = some out) : Layered out.1 out.2 := by
  rw [Scalable.insertAll] at hout
  generalize ([] : List Op) = ok at h hout
  induction ops generalizing s ok with
  | nil => exact Option.some.inj hout ▸ h
  | cons op rest ih =>
    obtain ⟨next, hnext, hout⟩ := Option.bind_eq_some_iff.mp hout
    obtain ⟨inserted, hinserted, rfl⟩ := Option.map_eq_some_iff.mp hnext
    exact ih _ (h.insert hinserted) hout

/-- A successful insert is always found, with no smaller value. In one table the value is the
largest that was inserted for a key of the same fingerprint and pair of buckets, a failed insert
changes no slot, and the count is that of the slots in use. -/
theorem maplets_never_under_report :
    (∀ n bits m₀, newLatticeMaplet n = some ⟨bits, m₀⟩ → ∀ ops m ok, m₀.insertAll ops = (m, ok) →
      (∀ op ∈ ok, ∃ w, m.lookup op.1 = some w ∧ op.2.toNat ≤ w) ∧
      (∀ key, IsJoin bits ok (classOf bits key) (m.lookup key)) ∧
      (∀ key val, (m.insert key val).1 ≠ none → (m.insert key val).2.buckets = m.buckets) ∧
      m.count = (Finset.univ.filter fun i => m.buckets i ≠ 0).card) ∧
    ∀ n s₀, newScalableLatticeMaplet n = some s₀ → ∀ ops s ok, s₀.insertAll ops = some (s, ok) →
      ∀ op ∈ ok, ∃ w, s.lookup op.1 = some w ∧ op.2.toNat ≤ w := by
  constructor
  · intro n bits m₀ hm₀ ops m ok hout
    have hjoined : Joined (m₀.insertAll ops).1 (m₀.insertAll ops).2 :=
      runLog_invariant (newLatticeMaplet_joined hm₀) ops fun _ _ op _ h => h.insert op.1 op.2
    rw [hout] at hjoined
    refine ⟨fun op hop => hjoined.found hop, hjoined.lookup, fun key val => insert_failed, ?_⟩
    rw [hjoined.count, Scheme.card_contents]
    rfl
  · intro n s₀ hs₀ ops s ok hout op hop
    obtain ⟨layer, hlayer, rfl⟩ := Option.map_eq_some_iff.mp hs₀
    have hstart : Layered { last := layer } [] := ⟨⟨[], newLatticeMaplet_joined hlayer⟩, by simp⟩
    exact (layered_insertAll hstart hout).found hop

def fourInserts : List Op := [([0x61], 3), ([0x62], 15), ([0x61], 7), ([0x63], 16)]

/-- Two keys, one of them joined, and a value that is too large. -/
theorem joined_key_found :
    (∃ m₀ m ok, newLatticeMaplet 0 = some ⟨3, m₀⟩ ∧ m₀.insertAll fourInserts = (m, ok) ∧
      m.count = (Finset.univ.filter fun i => m.buckets i ≠ 0).card) ∧
    ∃ s₀ s ok, newScalableLatticeMaplet 0 = some s₀ ∧ s₀.insertAll fourInserts = some (s, ok) ∧
      ∃ w, s.lookup [0x61] = some w ∧ 7 ≤ w := by
  have hnew : newLatticeMaplet 0 = some ⟨3, { maxCount := 28 }⟩ := rfl
  constructor
  · rcases hout : ({ maxCount := 28 } : Maplet 3).insertAll fourInserts with ⟨m, ok⟩
    exact ⟨_, m, ok, hnew, hout,
      (maplets_never_under_report.1 0 3 _ hnew fourInserts m ok hout).2.2.2⟩
  · have hscalable : newScalableLatticeMaplet 0 = some ⟨⟨3, { maxCount := 28 }⟩, []⟩ := by
      rw [newScalableLatticeMaplet, hnew, Option.map_some]
    have hrun : (Scalable.insertAll ⟨⟨3, { maxCount := 28 }⟩, []⟩ fourInserts).any
        (fun out => decide (([0x61], 7) ∈ out.2)) = true := by decide +kernel
    obtain ⟨⟨s, ok⟩, hout, hmem⟩ := (Option.any_eq_true _ _).mp hrun
    obtain ⟨w, hw, hle⟩ :=
      maplets_never_under_report.2 0 _ hscalable fourInserts s ok hout ([0x61], 7)
      (of_decide_eq_true hmem)
    exact ⟨_, s, ok, hscalable, hout, w, hw, hle⟩

end Foundation.LatticeMaplet
