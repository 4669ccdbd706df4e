import Foundation.Spec.RuntimeMaplet

/-! The runtime's maplets refine maps over the classes of hashes: the last value of a class, and the
number of its increments. -/

namespace Foundation.RuntimeMaplet

open Cuckoo

variable {bits v : ℕ}

/-- Hashes that the table cannot tell apart: those of one fingerprint and one pair of buckets. -/
def classOf (bits v : ℕ) (h : UInt64) : ℕ × Sym2 (BitVec bits) :=
  (packed bits v hashFingerprint32).cls (fingerprint (32 - v) h) (bucketIndex bits h)

/-- The path keeps the whole bucket number if it has no more than 32 bits. -/
theorem walk_keep (hbits : bits ≤ 32) (b : BitVec bits) : (walk bits).keep b = b := by
  have hlt : b.toNat < 2 ^ 32 := b.isLt.trans_le (Nat.pow_le_pow_right (by decide) hbits)
  rw [walk, xorshiftWalk]
  dsimp only
  rw [Nat.mod_eq_of_lt hlt, BitVec.ofNat_toNat, BitVec.setWidth_eq]

theorem Maplet.upserted (hbits : bits ≤ 32) (m : Maplet bits v) (h : UInt64) (val : ℕ)
    (merge : ℕ → ℕ) :
    (packed bits v hashFingerprint32).Upserted m.buckets (fingerprint (32 - v) h)
      (bucketIndex bits h)
      (pack v (fingerprint (32 - v) h) val)
        (fun slot => pack v (fingerprint (32 - v) h) (merge (value v slot)))
      ((m.upsert h val merge).1, (m.upsert h val merge).2.buckets) :=
  Scheme.upserted (walk bits) (walk_keep hbits) mapletMaxKicks true (h ||| 1) _
    (pack_shiftRight v _ _)

/-- A call that is given up leaves the table as it was. -/
theorem upsert_cycled (hbits : bits ≤ 32) {m : Maplet bits v} {h : UInt64} {val : ℕ} {merge : ℕ → ℕ}
    (hout : (m.upsert h val merge).1 = .cycled) : (m.upsert h val merge).2.buckets = m.buckets :=
  (m.upserted hbits h val merge).unchanged (.inr hout)

theorem upsert_ne_refused (m : Maplet bits v) (h : UInt64) (val : ℕ) (merge : ℕ → ℕ) :
    (m.upsert h val merge).1 ≠ .refused := by
  rw [Maplet.upsert, Scheme.upsert]
  split
  · simp
  · rw [if_pos rfl]
    split
    · simp
    · dsimp only
      split_ifs <;> simp

theorem Maplet.holds_upsert (hbits : bits ≤ 32) {m : Maplet bits v}
    {vals : ℕ × Sym2 (BitVec bits) → Option ℕ} (hvals : Holds v hashFingerprint32 m.buckets vals)
    (h : UInt64) {val : ℕ} {merge : ℕ → ℕ} (hval : val < 2 ^ v)
    (hmerge : ∀ y < 2 ^ v, merge y < 2 ^ v) :
    ((m.upsert h val merge).1 ≠ .cycled ∧ Holds v hashFingerprint32 (m.upsert h val merge).2.buckets
      (Function.update vals (classOf bits v h)
        (some (((vals (classOf bits v h)).map merge).getD val)))) ∨
    ((m.upsert h val merge).1 = .cycled ∧
      Holds v hashFingerprint32 (m.upsert h val merge).2.buckets vals) := by
  obtain ⟨y, hy, hout, hnew⟩ | ⟨hnone, hout, hnew⟩ | ⟨hout, hsame⟩ :=
    hvals.upserted (m.upserted hbits h val merge) (fingerprint_ne_zero _ h) hval hmerge
  · refine .inl ⟨by rw [hout]; simp, ?_⟩
    rw [classOf, hy]
    exact hnew
  · refine .inl ⟨by rw [hout]; simp, ?_⟩
    rw [classOf, hnone]
    exact hnew
  · refine .inr ⟨hout.resolve_left (upsert_ne_refused m h val merge), ?_⟩
    dsimp only at hsame
    rwa [hsame]

theorem Holds.find {m : Maplet bits v} {vals : ℕ × Sym2 (BitVec bits) → Option ℕ}
    (hvals : Holds v hashFingerprint32 m.buckets vals) (h : UInt64) :
    m.find h = vals (classOf bits v h) :=
  hvals.lookup _ _

/-! ### The last value -/

abbrev Insert := UInt64 × UInt8

def lastOf (bits : ℕ) (ok : List Insert) (c : ℕ × Sym2 (BitVec bits)) : Option ℕ :=
  (ok.find? fun op => classOf bits 4 op.1 = c).map (·.2.toNat)

def WideMaplet.afterInserts (bits : ℕ) (ops : List Insert) : WideMaplet bits × List Insert :=
  runLog (fun m op => WideMaplet.insertHash m op.1 op.2) {} ops

theorem lastOf_cons (op : Insert) (ok : List Insert) :
    lastOf bits (op :: ok) = Function.update (lastOf bits ok) (classOf bits 4 op.1)
      (some op.2.toNat) := by
  funext c
  rcases eq_or_ne c (classOf bits 4 op.1) with rfl | hc
  · simp [lastOf]
  · simp [lastOf, hc, hc.symm]

theorem WideMaplet.insertHash_last (hbits : bits ≤ 32) {m : WideMaplet bits} {ok : List Insert}
    (hm : Holds 4 hashFingerprint32 m.buckets (lastOf bits ok)) (op : Insert)
    (hop : op.2.toNat ≤ 15) :
    Holds 4 hashFingerprint32 (m.insertHash op.1 op.2).2.buckets
      (lastOf bits (if (m.insertHash op.1 op.2).1 then op :: ok else ok)) := by
  have hval : op.2.toNat < 2 ^ 4 := Nat.lt_succ_of_le hop
  obtain ⟨hout, hnew⟩ | ⟨hout, hsame⟩ := Maplet.holds_upsert hbits hm op.1 hval (fun _ _ => hval)
  · rw [WideMaplet.insertHash, if_pos (by simpa using hout), lastOf_cons]
    convert hnew using 3
    cases lastOf bits ok (classOf bits 4 op.1) <;> rfl
  · rw [WideMaplet.insertHash, if_neg (by simp [hout])]
    exact hsame

/-! ### The number of increments -/

def countOf (bits : ℕ) (ok : List UInt64) (c : ℕ × Sym2 (BitVec bits)) : Option ℕ :=
  if ok.countP (classOf bits 8 · = c) = 0 then none
  else some (min 255 (ok.countP (classOf bits 8 · = c)))

/-- An increment is recorded unless the table has no slot for it. -/
def CountingMaplet.recorded (m : CountingMaplet bits) (h : UInt64) : Bool :=
  (m.counted h).1 ≠ .cycled

def CountingMaplet.afterIncrements (bits : ℕ) (hs : List UInt64) :
    CountingMaplet bits × List UInt64 :=
  runLog (fun m h => (CountingMaplet.recorded m h, (CountingMaplet.incrementHash m h).2)) {} hs

theorem incrementHash_buckets (m : CountingMaplet bits) (h : UInt64) :
    (CountingMaplet.incrementHash m h).2 = (CountingMaplet.counted m h).2 := by
  rw [CountingMaplet.incrementHash]
  split <;> rfl

theorem countOf_cons (h : UInt64) (ok : List UInt64) :
    countOf bits (h :: ok) = Function.update (countOf bits ok) (classOf bits 8 h)
      (some (((countOf bits ok (classOf bits 8 h)).map nextCount).getD 1)) := by
  funext c
  rcases eq_or_ne c (classOf bits 8 h) with rfl | hc
  · by_cases hzero : ok.countP (classOf bits 8 · = classOf bits 8 h) = 0
    · simp [countOf, hzero]
    · simp [countOf, hzero, nextCount]
      omega
  · simp [countOf, hc, hc.symm]

theorem CountingMaplet.incrementHash_count (hbits : bits ≤ 32) {m : CountingMaplet bits}
    {ok : List UInt64} (hm : Holds 8 hashFingerprint32 m.buckets (countOf bits ok)) (h : UInt64) :
    Holds 8 hashFingerprint32 (CountingMaplet.incrementHash m h).2.buckets
      (countOf bits (if CountingMaplet.recorded m h then h :: ok else ok)) := by
  rw [incrementHash_buckets, CountingMaplet.recorded, CountingMaplet.counted]
  have hnext (y : ℕ) (_ : y < 2 ^ 8) : nextCount y < 2 ^ 8 := by
    rw [nextCount]
    omega
  obtain ⟨hout, hnew⟩ | ⟨hout, hsame⟩ :=
    Maplet.holds_upsert hbits hm h (by decide : 1 < 2 ^ 8) hnext
  · rw [if_pos (by simpa using hout), countOf_cons]
    exact hnew
  · rw [if_neg (by simp [hout])]
    exact hsame

/-- With values of four bits and no more than `2 ^ 32` buckets, a lookup gives the value of the last
successful insert of the class, a count the number of the recorded increments up to 255, and a call
that fails changes no slot. -/
theorem maplets_refine_class_maps (bits : ℕ) (hbits : bits ≤ 32) :
    (∀ ops m ok, (∀ op ∈ ops, op.2.toNat ≤ 15) → WideMaplet.afterInserts bits ops = (m, ok) →
      (∀ h, m.lookupHash h = (ok.find? fun op => classOf bits 4 op.1 = classOf bits 4 h).map
        (·.2.toNat)) ∧
        ∀ op ∈ ok, m.lookupHash op.1 ≠ none) ∧
    (∀ hs m ok, CountingMaplet.afterIncrements bits hs = (m, ok) →
      (∀ h, m.countHash h = min 255 (ok.countP fun h' => classOf bits 8 h' = classOf bits 8 h)) ∧
        ∀ h ∈ ok, m.countHash h ≠ 0) ∧
    (∀ (m : WideMaplet bits) h val, (m.insertHash h val).1 = false →
      (m.insertHash h val).2.buckets = m.buckets) ∧
    ∀ (m : CountingMaplet bits) h, m.recorded h = false →
      (m.incrementHash h).2.buckets = m.buckets := by
  refine ⟨fun ops m ok hops hrun => ?_, fun hs m ok hrun => ?_, fun m h val hout => ?_,
    fun m h hout => ?_⟩
  · have hholds : Holds 4 hashFingerprint32 (WideMaplet.afterInserts bits ops).1.buckets
        (lastOf bits (WideMaplet.afterInserts bits ops).2) :=
      runLog_invariant (P := fun (m : WideMaplet bits) ok => Holds 4 hashFingerprint32 m.buckets
        (lastOf bits ok))
        (Holds.empty 4 _) ops fun _ _ op hop hm => WideMaplet.insertHash_last hbits hm op
          (hops op hop)
    rw [hrun] at hholds
    have hlookup (h : UInt64) : m.lookupHash h = lastOf bits ok (classOf bits 4 h) :=
      Holds.find hholds h
    refine ⟨hlookup, fun op hop hnone => ?_⟩
    rw [hlookup, lastOf, Option.map_eq_none_iff] at hnone
    simpa using List.find?_eq_none.mp hnone op hop
  · have hholds : Holds 8 hashFingerprint32 (CountingMaplet.afterIncrements bits hs).1.buckets
        (countOf bits (CountingMaplet.afterIncrements bits hs).2) :=
      runLog_invariant (P := fun (m : CountingMaplet bits) ok => Holds 8 hashFingerprint32 m.buckets
        (countOf bits ok))
        (Holds.empty 8 _) hs fun _ _ h _ hm => CountingMaplet.incrementHash_count hbits hm h
    rw [hrun] at hholds
    have hcount (h : UInt64) : m.countHash h = min 255 (ok.countP fun h' => classOf bits 8 h' =
        classOf bits 8 h) := by
      rw [CountingMaplet.countHash, Holds.find hholds, countOf]
      split_ifs with hzero
      · simp [hzero]
      · rfl
    refine ⟨hcount, fun h hh => ?_⟩
    have hpos : 0 < ok.countP fun h' => classOf bits 8 h' = classOf bits 8 h :=
      List.countP_pos_iff.mpr ⟨h, hh, by simp⟩
    rw [hcount]
    omega
  · exact upsert_cycled hbits (not_not.mp (of_decide_eq_false hout))
  · rw [incrementHash_buckets]
    exact upsert_cycled hbits (not_not.mp (of_decide_eq_false hout))

def threeInserts : List Insert := [(1, 3), (2, 9), (0x1000000000000001, 7)]

/-- Two hashes that differ only above the fingerprint, and one of another bucket. -/
theorem alias_overwrites :
    ∃ m ok, WideMaplet.afterInserts 3 threeInserts = (m, ok) ∧
      WideMaplet.lookupHash m 1 = some 7 := by
  have hok : (WideMaplet.afterInserts 3 threeInserts).2 = [(0x1000000000000001, 7), (2, 9),
      (1, 3)] := by
    decide +kernel
  have hsmall : ∀ op ∈ threeInserts, op.2.toNat ≤ 15 := by simp [threeInserts]
  generalize hrun : WideMaplet.afterInserts 3 threeInserts = out at hok
  obtain ⟨m, ok⟩ := out
  have hlookup := ((maplets_refine_class_maps 3 (by decide)).1 threeInserts m ok hsmall hrun).1 1
  refine ⟨m, ok, rfl, hlookup.trans ?_⟩
  obtain rfl : ok = [(0x1000000000000001, 7), (2, 9), (1, 3)] := hok
  decide +kernel

/-- A value of more than four bits is stored as another one, and the insert succeeds. -/
theorem large_value_truncated :
    (WideMaplet.insertHash ({} : WideMaplet 3) 0 16).1 = true ∧
      WideMaplet.lookupHash (WideMaplet.insertHash ({} : WideMaplet 3) 0 16).2 0 = some 0 := by
  decide +kernel

end Foundation.RuntimeMaplet
