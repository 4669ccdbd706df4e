import Foundation.Lib.Cuckoo
import Mathlib.Data.BitVec
import Mathlib.Data.FinEnum

/-! Cuckoo tables whose slots are numbers: a fingerprint above the bits of a small value, with zero
for an empty slot. The number of buckets is a power of two, and the second bucket is the first one
xor a hash of the fingerprint. -/

namespace Foundation.Cuckoo

def pack (v fp val : ℕ) : ℕ := fp <<< v ||| (val &&& (2 ^ v - 1))

def value (v slot : ℕ) : ℕ := slot &&& (2 ^ v - 1)

theorem pack_eq (v fp val : ℕ) : pack v fp val = fp * 2 ^ v + val % 2 ^ v := by
  rw [pack, Nat.and_two_pow_sub_one_eq_mod,
    ← Nat.shiftLeft_add_eq_or_of_lt (Nat.mod_lt _ (Nat.two_pow_pos v)),
    Nat.shiftLeft_eq]

@[simp] theorem pack_shiftRight (v fp val : ℕ) : pack v fp val >>> v = fp := by
  rw [pack_eq, Nat.shiftRight_eq_div_pow, Nat.mul_comm, Nat.mul_add_div (Nat.two_pow_pos v),
    Nat.div_eq_of_lt (Nat.mod_lt _ (Nat.two_pow_pos v)), Nat.add_zero]

@[simp] theorem value_pack (v fp val : ℕ) : value v (pack v fp val) = val % 2 ^ v := by
  rw [value, Nat.and_two_pow_sub_one_eq_mod, pack_eq, Nat.mul_add_mod_self_right, Nat.mod_mod]

theorem pack_ne_zero {fp : ℕ} (h : fp ≠ 0) (v val : ℕ) : pack v fp val ≠ 0 := by
  rw [pack_eq]
  have := Nat.mul_pos (Nat.pos_of_ne_zero h) (Nat.two_pow_pos v)
  omega

/-- A fingerprint is never zero, so that no entry is. -/
def fingerprint (width : ℕ) (h : UInt64) : ℕ :=
  let fp := (h >>> 32).toNat &&& (2 ^ width - 1)
  if fp = 0 then 1 else fp

theorem fingerprint_ne_zero (width : ℕ) (h : UInt64) : fingerprint width h ≠ 0 := by
  unfold fingerprint
  extract_lets fp
  split_ifs with hfp
  · exact one_ne_zero
  · exact hfp

def packed (k v : ℕ) (hash : ℕ → UInt32) : Scheme (BitVec k) ℕ ℕ where
  empty := 0
  fp slot := slot >>> v
  alt f b := b ^^^ (hash f).toBitVec.setWidth k
  alt_alt f b := by rw [BitVec.xor_assoc, BitVec.xor_self, BitVec.xor_zero]

def xorshift (rng : UInt64) : UInt64 :=
  let rng := rng ^^^ (rng <<< 13)
  let rng := rng ^^^ (rng >>> 7)
  rng ^^^ (rng <<< 17)

def xorshiftWalk (k : ℕ) (keep : BitVec k → BitVec k) : Walk (BitVec k) UInt64 4 where
  next := xorshift
  pick rng := ⟨rng.toNat % 4, Nat.mod_lt _ (by decide)⟩
  keep := keep

/-! ### The values of the classes -/

variable {k v : ℕ} {hash : ℕ → UInt32} {t : Table (BitVec k) ℕ 4} {vals : ℕ × Sym2 (BitVec k) →
  Option ℕ}

/-- The table holds one value for each of the classes that have one. -/
structure Holds (v : ℕ) (hash : ℕ → UInt32) (t : Table (BitVec k) ℕ 4) (vals : ℕ × Sym2 (BitVec k) →
  Option ℕ) :
    Prop where
  represents : (packed k v hash).Represents t fun c => (vals c).map (pack v c.1)
  small : ∀ c, ∀ x ∈ vals c, x < 2 ^ v

theorem Holds.empty (v : ℕ) (hash : ℕ → UInt32) :
    Holds v hash (fun _ : BitVec k × Fin 4 => 0) fun _ => none := by
  have hnone : (packed k v hash).contents (fun _ : BitVec k × Fin 4 => 0) = 0 :=
    Finset.sum_eq_zero fun i _ => (packed k v hash).token_empty i.1
  refine ⟨⟨?_, ?_⟩, ?_⟩ <;> simp [hnone]

theorem Holds.lookup (h : Holds v hash t vals) (f : ℕ) (b : BitVec k) :
    ((packed k v hash).locate t f b).map (fun i => value v (t i)) =
      vals ((packed k v hash).cls f b) := by
  have hlocate := congrArg (Option.map (value v)) (h.represents.locate (f := f) (b := b))
  rw [Option.map_map, Option.map_map] at hlocate
  refine hlocate.trans ?_
  cases hx : vals ((packed k v hash).cls f b) with
  | none => rfl
  | some x => simp [Nat.mod_eq_of_lt (h.small _ x hx)]

theorem Holds.update {t' : Table (BitVec k) ℕ 4} (h : Holds v hash t vals) {f : ℕ} {b : BitVec k}
    {x : ℕ} (hx : x < 2 ^ v)
    (ht : (packed k v hash).Represents t' (Function.update (fun c => (vals c).map (pack v c.1))
      ((packed k v hash).cls f b) (some (pack v f x)))) :
    Holds v hash t' (Function.update vals ((packed k v hash).cls f b) (some x)) where
  represents := by
    convert ht using 1
    funext c
    rcases eq_or_ne c ((packed k v hash).cls f b) with rfl | hc
    · simp [Scheme.cls]
    · simp [hc]
  small c y hy := by
    rcases eq_or_ne c ((packed k v hash).cls f b) with rfl | hc
    · rw [Function.update_self] at hy
      exact Option.some.inj hy ▸ hx
    · rw [Function.update_of_ne hc] at hy
      exact h.small c y hy

theorem Holds.upserted (h : Holds v hash t vals) {f : ℕ} {b : BitVec k} {x : ℕ} {g : ℕ → ℕ}
    {out : Outcome ℕ × Table (BitVec k) ℕ 4}
    (ho : (packed k v hash).Upserted t f b (pack v f x) (fun slot => pack v f (g (value v slot)))
      out) (hf : f ≠ 0) (hx : x < 2 ^ v) (hg : ∀ y < 2 ^ v, g y < 2 ^ v) :
    (∃ y, vals ((packed k v hash).cls f b) = some y ∧ out.1 = .merged (pack v f (g y)) ∧
      Holds v hash out.2 (Function.update vals ((packed k v hash).cls f b) (some (g y)))) ∨
    (vals ((packed k v hash).cls f b) = none ∧ out.1 = .added ∧
      Holds v hash out.2 (Function.update vals ((packed k v hash).cls f b) (some x))) ∨
    ((out.1 = .refused ∨ out.1 = .cycled) ∧ out.2 = t) := by
  have hlookup := h.lookup f b
  cases ho with
  | @merged i hi =>
    rw [hi, Option.map_some, eq_comm] at hlookup
    refine .inl ⟨_, hlookup, rfl,
      h.update (hg _ (h.small _ _ hlookup)) (h.represents.replace hi ?_ ?_)⟩
    · exact pack_shiftRight v f _
    · exact pack_ne_zero hf v _
  | added hnone ht =>
    rw [hnone, Option.map_none, eq_comm] at hlookup
    refine .inr
      (.inl ⟨hlookup, rfl, h.update hx (h.represents.add (pack_shiftRight v f x) ?_ ?_ ht)⟩)
    · exact pack_ne_zero hf v x
    · rw [hlookup, Option.map_none]
  | refused => exact .inr (.inr ⟨.inl rfl, rfl⟩)
  | cycled => exact .inr (.inr ⟨.inr rfl, rfl⟩)

/-! ### Runs -/

variable {σ ω : Type}

/-- The state after a list of calls, and those that succeeded, the last one first. -/
def runLog (step : σ → ω → Bool × σ) (s : σ) (ops : List ω) : σ × List ω :=
  ops.foldl (fun acc op => ((step acc.1 op).2, if (step acc.1 op).1 then op :: acc.2
    else acc.2)) (s, [])

theorem runLog_invariant {step : σ → ω → Bool × σ} {P : σ → List ω → Prop} {s : σ} (h₀ : P s [])
    (ops : List ω)
    (hstep : ∀ s log, ∀ op ∈ ops, P s log →
      P (step s op).2 (if (step s op).1 then op :: log else log)) :
    P (runLog step s ops).1 (runLog step s ops).2 := by
  rw [runLog]
  generalize ([] : List ω) = log at h₀
  induction ops generalizing s log with
  | nil => exact h₀
  | cons op rest ih =>
    rw [List.foldl_cons]
    exact ih (fun s log op hop => hstep s log op (List.mem_cons_of_mem _ hop)) _
      (hstep s log op List.mem_cons_self h₀)

end Foundation.Cuckoo
