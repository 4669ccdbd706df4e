import Mathlib.Algebra.BigOperators.Group.List.Basic
import Mathlib.Data.BitVec
import Mathlib.Tactic.FieldSimp
import Mathlib.Tactic.LinearCombination
import Foundation.Spec.ColumnarReduce

/-! The reductions see the present rows and nothing else: a null adds the identity, whatever its
slot holds, and the windows of the validity words follow one another. -/

namespace Foundation.Hermes

open PackedBits
open PackedBitmap (onesCount64)

/-! ### Present rows -/

section Present

variable {V : Type} {p q : ℕ → Bool}

/-- The rows of a list, numbered from `b`, whose number meets `p`. -/
def present (p : ℕ → Bool) (b : ℕ) : List V → List V
  | [] => []
  | v :: rest => if p b then v :: present p (b + 1) rest else present p (b + 1) rest

theorem presentRows_eq (values : List V) (validity : List Word) :
    presentRows values validity = present (bitAt validity) 0 values := by
  have h (b : ℕ) (l : List V) : ((l.zipIdx b).filter fun v => bitAt validity v.2).map Prod.fst =
      present (bitAt validity) b l := by
    induction l generalizing b with
    | nil => rfl
    | cons v rest ih =>
      rw [List.zipIdx_cons, List.filter_cons, present, ← ih]
      split_ifs <;> rfl
  exact h 0 values

theorem present_append (p : ℕ → Bool) (b : ℕ) (l l' : List V) :
    present p b (l ++ l') = present p b l ++ present p (b + l.length) l' := by
  induction l generalizing b with
  | nil => rfl
  | cons v rest ih =>
    rw [List.cons_append, present, present, ih, List.length_cons, Nat.add_assoc, Nat.add_comm 1]
    split_ifs <;> rfl

theorem present_congr {b c : ℕ} {l : List V} (h : ∀ i < l.length, p (b + i) = q (c + i)) :
    present p b l = present q c l := by
  induction l generalizing b c with
  | nil => rfl
  | cons v rest ih =>
    have hrest : present p (b + 1) rest = present q (c + 1) rest := by
      refine ih fun i hi => ?_
      have hnext := h (i + 1) (Nat.succ_lt_succ hi)
      rwa [Nat.add_comm i 1, ← Nat.add_assoc, ← Nat.add_assoc] at hnext
    have hhead := h 0 (Nat.succ_pos _)
    rw [Nat.add_zero, Nat.add_zero] at hhead
    rw [present, present, hhead, hrest]

theorem present_cons_word (word : Word) (rest : List Word) (l : List V) :
    present (bitAt (word :: rest)) 0 l =
      present (fun i => word.getLsbD i) 0 (l.take 64) ++ present (bitAt rest) 0 (l.drop 64) := by
  conv_lhs => rw [← List.take_append_drop 64 l]
  rw [present_append]
  congr 1
  · refine present_congr fun i hi => ?_
    rw [List.length_take] at hi
    rw [bitAt_cons, Nat.zero_add, if_pos (by omega)]
  · refine present_congr fun i hi => ?_
    rw [List.length_drop] at hi
    rw [bitAt_cons, List.length_take, if_neg (by omega)]
    congr 1
    omega

theorem present_zero (b : ℕ) (l : List V) : present (fun i => (0 : Word).getLsbD i) b l = [] := by
  induction l generalizing b with
  | nil => rfl
  | cons v rest ih =>
    rw [present, ih]
    simp

theorem forWindows_rule {σ : Type} {P : σ → List V → Prop} {values : List V}
    {body : σ → Word → List V → σ} {validity : List Word} {w : ℕ} {acc : σ} {l : List V}
    (hbody : ∀ acc l k word, validity[k]? = some word → P acc l →
      P (body acc word ((values.drop (64 * (w + k))).take 64))
      (l ++ present (fun i => word.getLsbD i) 0 ((values.drop (64 * (w + k))).take 64)))
    (h : P acc l) :
    P (forWindows values body w acc validity)
      (l ++ present (bitAt validity) 0 (values.drop (64 * w))) := by
  induction validity generalizing w acc l with
  | nil =>
    have hnone (b : ℕ) (l : List V) : present (bitAt []) b l = [] := by
      induction l generalizing b with
      | nil => rfl
      | cons v rest ih =>
        rw [present, ih]
        simp [bitAt]
    rw [hnone, List.append_nil]
    exact h
  | cons word rest ih =>
    have hnext (acc : σ) (l : List V) (h : P acc l) : P (forWindows values body (w + 1) acc rest)
        (l ++ present (bitAt rest) 0 (values.drop (64 * (w + 1)))) := by
      refine ih (fun acc l k word hk hP => ?_) h
      have hlater := hbody acc l (k + 1) word hk hP
      rwa [show w + (k + 1) = w + 1 + k by omega] at hlater
    rw [present_cons_word, List.drop_drop, ← Nat.mul_succ, ← List.append_assoc, forWindows]
    have hspan : (wordSpan w values.length).1 = w * 64 ∧
      (wordSpan w values.length).2 = min (w * 64 + 64) values.length := ⟨rfl, rfl⟩
    by_cases hzero : word = 0
    · rw [if_pos hzero, hzero, present_zero, List.append_nil]
      exact hnext acc l h
    rw [if_neg hzero]
    by_cases hpast : (wordSpan w values.length).2 ≤ (wordSpan w values.length).1
    · have hnil : values.drop (64 * w) = [] := List.drop_eq_nil_of_le (by omega)
      have hnil' : values.drop (64 * w.succ) = [] := List.drop_eq_nil_of_le (by omega)
      rw [if_pos hpast, hnil, hnil', List.take_nil, present, present, List.append_nil,
        List.append_nil]
      exact h
    · have hrows : (values.drop (w * 64)).take (min (w * 64 + 64) values.length - w * 64) =
          (values.drop (64 * w)).take 64 := by
        rw [Nat.mul_comm w 64, List.take_eq_take_iff, List.length_drop]
        omega
      rw [if_neg hpast, hspan.1, hspan.2, hrows]
      exact hnext _ _ (hbody acc l 0 word rfl h)

theorem forWindows_all {σ : Type} (P : σ → List V → Prop) (values : List V)
    (body : σ → Word → List V → σ) (validity : List Word) (acc : σ)
    (hbody : ∀ acc l k word, validity[k]? = some word → P acc l →
      P (body acc word ((values.drop (64 * (0 + k))).take 64))
      (l ++ present (fun i => word.getLsbD i) 0 ((values.drop (64 * (0 + k))).take 64)))
    (h : P acc []) :
    P (forWindows values body 0 acc validity) (present (bitAt validity) 0 values) := by
  have hrule := forWindows_rule hbody h
  rwa [Nat.mul_zero, List.drop_zero, List.nil_append] at hrule

end Present

/-! ### Lanes -/

section Lanes

variable {V A M : Type} [Add A] [AddCommMonoid M]

/-- The four lanes together hold what they held and one summand for each row. -/
theorem accumulate_total (φ : A → M) (hφ : ∀ a b, φ (a + b) = φ a + φ b) (f : ℕ → V → A) (b : ℕ)
    (s : Lanes A) (rows : List V) :
    φ (accumulate f b s rows).total = φ s.total +
      ((rows.zipIdx b).map fun v => φ (f v.2 v.1)).sum := by
  have htail (l : List (V × ℕ)) (a : A) :
      φ (l.foldl (fun s0 v => s0 + f v.2 v.1) a) = φ a + (l.map fun v => φ (f v.2 v.1)).sum := by
    induction l generalizing a with
    | nil => rw [List.foldl_nil, List.map_nil, List.sum_nil, add_zero]
    | cons v rest ih => rw [List.foldl_cons, ih, hφ, List.map_cons, List.sum_cons, add_assoc]
  fun_induction accumulate f b s rows with
  | case1 b s v0 v1 v2 v3 rest ih =>
    rw [ih]
    simp only [Lanes.total, hφ, List.zipIdx_cons, List.map_cons, List.sum_cons, Nat.add_assoc,
      Nat.reduceAdd]
    abel
  | case2 b s rest hshort =>
    simp only [Lanes.total, hφ, htail]
    abel

/-- A summand that is zero at a null is a summand of the present rows. -/
theorem sum_present (p : ℕ → Bool) (g : V → M) (b : ℕ) (rows : List V) :
    ((rows.zipIdx b).map fun v => if p v.2 then g v.1 else 0).sum =
      ((present p b rows).map g).sum := by
  induction rows generalizing b with
  | nil => rfl
  | cons v rest ih =>
    rw [List.zipIdx_cons, List.map_cons, List.sum_cons, ih, present]
    split_ifs
    · rw [List.map_cons, List.sum_cons]
    · rw [zero_add]

end Lanes

theorem length_present (word : Word) (b : ℕ) {V : Type} (rows : List V) :
    (present (fun i => word.getLsbD i) b rows).length =
      ((List.range' b rows.length).filter fun i => word.getLsbD i).length := by
  induction rows generalizing b with
  | nil => rfl
  | cons v rest ih =>
    rw [present, List.length_cons, List.range'_succ, List.filter_cons]
    split_ifs <;> simp [ih]

variable {word : Word}

/-- A word without bits past its rows has as many as there are present rows. -/
theorem onesCount64_eq {V : Type} {rows : List V} (hlen : rows.length ≤ 64)
    (h : ∀ i, rows.length ≤ i → word.getLsbD i = false) :
    onesCount64 word = (present (fun i => word.getLsbD i) 0 rows).length := by
  have hpast : ((List.range' rows.length (64 - rows.length)).filter fun i => word.getLsbD i) =
      [] := by
    refine List.filter_eq_nil_iff.mpr fun i hi => ?_
    rw [h i (List.mem_range'_1.mp hi).1]
    simp
  have hsplit : List.range 64 = List.range' 0 rows.length ++
      List.range' rows.length (64 - rows.length) := by
    have happend := List.range'_append_1 (s := 0) (m := rows.length) (n := 64 - rows.length)
    rw [Nat.zero_add, Nat.add_sub_cancel' hlen] at happend
    rw [List.range_eq_range', happend]
  rw [onesCount64, wordBits, hsplit, List.filter_append, hpast, List.append_nil, length_present]

theorem and_one_eq (word : Word) (b : ℕ) :
    (word >>> b) &&& 1 = if word.getLsbD b then 1 else 0 := by
  apply BitVec.eq_of_getLsbD_eq
  intro i hi
  rw [BitVec.getLsbD_and, BitVec.getLsbD_ushiftRight, show (1 : Word) = BitVec.ofNat 64 1 from rfl,
    BitVec.getLsbD_one]
  cases hb : word.getLsbD b <;> rcases Nat.eq_zero_or_pos i with rfl | hpos <;> simp_all
  all_goals omega

theorem maskBit_eq (word : Word) (b : ℕ) :
    maskBit word b = if word.getLsbD b then BitVec.allOnes 64 else 0 := by
  rw [maskBit, and_one_eq]
  split_ifs <;> decide

/-! ### Int64 columns -/

theorem maskInt64_eq (word : Word) (b : ℕ) (v : Int64) :
    maskInt64 word b v = if word.getLsbD b then v else 0 := by
  rw [maskInt64, maskBit_eq]
  apply Int64.toBitVec_inj.mp
  split_ifs <;> simp

theorem fillInt64_eq (identity : Int64) (word : Word) (b : ℕ) (v : Int64) :
    fillInt64 identity word b v = if word.getLsbD b then v else identity := by
  rw [fillInt64, maskBit_eq]
  apply Int64.toBitVec_inj.mp
  split_ifs <;> simp

theorem sumWindow_spec (acc : Lanes Int64 × ℕ) (word : Word) (rows : List Int64) :
    (sumWindow acc word rows).1.total.toBitVec = acc.1.total.toBitVec +
      ((present (fun i => word.getLsbD i) 0 rows).map Int64.toBitVec).sum ∧
    (sumWindow acc word rows).2 = acc.2 + onesCount64 word := by
  have hadd (a b : Int64) : (a + b).toBitVec = a.toBitVec + b.toBitVec := Int64.toBitVec_add
  rw [sumWindow]
  split_ifs with hdense
  · refine ⟨?_, rfl⟩
    rw [accumulate_total Int64.toBitVec hadd, ← sum_present]
    congr 2
    refine List.map_congr_left fun v hv => ?_
    have hlt := List.snd_lt_add_of_mem_zipIdx hv
    rw [hdense.1, BitVec.getLsbD_allOnes, if_pos (by simp; omega)]
  · refine ⟨?_, rfl⟩
    rw [accumulate_total Int64.toBitVec hadd, ← sum_present]
    congr 2
    refine List.map_congr_left fun v _ => ?_
    rw [maskInt64_eq]
    split_ifs <;> rfl

theorem toBitVec_ofInt_sum (l : List Int64) :
    (Int64.ofInt (l.map Int64.toInt).sum).toBitVec = (l.map Int64.toBitVec).sum := by
  induction l with
  | nil => rfl
  | cons v rest ih =>
    rw [List.map_cons, List.sum_cons, Int64.ofInt_add, Int64.toBitVec_add, ih, Int64.ofInt_toInt,
      List.map_cons,
      List.sum_cons]

/-- Which of two values a reduction prefers. -/
def Prefers (wantMin : Bool) (a b : Int64) : Prop := if wantMin then a ≤ b else b ≤ a

def extremumIdentity (wantMin : Bool) : Int64 :=
  if wantMin then int64IdentityForMin else int64IdentityForMax

theorem prefers_identity (wantMin : Bool) (v : Int64) :
    Prefers wantMin v (extremumIdentity wantMin) := by
  cases wantMin
  · exact Int64.minValue_le v
  · exact Int64.le_maxValue v

theorem better_identity (wantMin : Bool) (best : Int64) :
    better wantMin best (extremumIdentity wantMin) = best := by
  have h := prefers_identity wantMin best
  cases wantMin
  · exact if_neg (Int64.not_lt.mpr h)
  · exact if_neg (Int64.not_lt.mpr h)

theorem prefers_trans {wantMin : Bool} {a b c : Int64} (hab : Prefers wantMin a b)
    (hbc : Prefers wantMin b c) :
    Prefers wantMin a c := by
  cases wantMin
  · exact Int64.le_trans hbc hab
  · exact Int64.le_trans hab hbc

theorem prefers_antisymm {wantMin : Bool} {a b : Int64} (hab : Prefers wantMin a b)
    (hba : Prefers wantMin b a) :
    a = b := by
  cases wantMin
  · exact Int64.le_antisymm hba hab
  · exact Int64.le_antisymm hab hba

theorem better_cases (wantMin : Bool) (best v : Int64) :
    (better wantMin best v = best ∨ better wantMin best v = v) ∧
      Prefers wantMin (better wantMin best v) best ∧
      Prefers wantMin (better wantMin best v) v := by
  cases wantMin
  · simp only [better, Prefers, Bool.false_eq_true, if_false]
    split_ifs with hlt
    · exact ⟨.inr rfl, Int64.le_of_lt hlt, Int64.le_refl v⟩
    · exact ⟨.inl rfl, Int64.le_refl best, Int64.not_lt.mp hlt⟩
  · simp only [better, Prefers, if_true]
    split_ifs with hlt
    · exact ⟨.inr rfl, Int64.le_of_lt hlt, Int64.le_refl v⟩
    · exact ⟨.inl rfl, Int64.le_refl best, Int64.not_lt.mp hlt⟩

theorem foldl_better (wantMin : Bool) (best : Int64) (l : List Int64) :
    (l.foldl (better wantMin) best = best ∨ l.foldl (better wantMin) best ∈ l) ∧
      Prefers wantMin (l.foldl (better wantMin) best) best ∧
      ∀ v ∈ l, Prefers wantMin (l.foldl (better wantMin) best) v := by
  induction l generalizing best with
  | nil =>
    exact ⟨.inl rfl, by cases wantMin <;> exact Int64.le_refl best,
      fun v hv => absurd hv List.not_mem_nil⟩
  | cons v rest ih =>
    obtain ⟨hchoice, hbest, hv⟩ := better_cases wantMin best v
    obtain ⟨hmem, hfirst, hrest⟩ := ih (better wantMin best v)
    rw [List.foldl_cons]
    refine ⟨?_, prefers_trans hfirst hbest, fun u hu => ?_⟩
    · rcases hmem with heq | hmem
      · rw [heq]
        rcases hchoice with hsame | hnew
        · exact .inl hsame
        · exact .inr (List.mem_cons.mpr (.inl hnew))
      · exact .inr (List.mem_cons_of_mem v hmem)
    · rcases List.mem_cons.mp hu with rfl | hu
      · exact prefers_trans hfirst hv
      · exact hrest u hu

theorem extremumWindow_spec (wantMin : Bool) (acc : Int64 × ℕ) {rows : List Int64} :
    (extremumWindow wantMin (extremumIdentity wantMin) acc word rows).1 =
      (present (fun i => word.getLsbD i) 0 rows).foldl (better wantMin) acc.1 := by
  have h (b : ℕ) (best : Int64) : (rows.zipIdx b).foldl
      (fun best v => better wantMin best (fillInt64 (extremumIdentity wantMin) word v.2 v.1)) best =
        (present (fun i => word.getLsbD i) b rows).foldl (better wantMin) best := by
    induction rows generalizing b best with
    | nil => rfl
    | cons v rest ih =>
      rw [List.zipIdx_cons, List.foldl_cons, ih, present, fillInt64_eq]
      split_ifs
      · rfl
      · rw [better_identity]
  exact h 0 acc.1

theorem extremumInt64Valid_eq (values : List Int64) (validity : List Word) (wantMin : Bool) :
    extremumInt64Valid values validity wantMin =
      forWindows values (extremumWindow wantMin (extremumIdentity wantMin)) 0
      (extremumIdentity wantMin, 0) validity :=
  rfl

/-- The sum modulo `2 ^ 64` and the least or greatest of the present rows, each with their number.
-/
theorem int64_reductions (values : List Int64) (validity : List Word)
    (h : ∀ i, values.length ≤ i → bitAt validity i = false) :
    sumInt64Valid values validity =
      (Int64.ofInt ((presentRows values validity).map Int64.toInt).sum,
        (presentRows values validity).length) ∧
    ∀ wantMin, (extremumInt64Valid values validity wantMin).2 =
      (presentRows values validity).length ∧
      (presentRows values validity = [] → (extremumInt64Valid values validity wantMin).1 =
        extremumIdentity wantMin) ∧
      (presentRows values validity ≠ [] →
        (extremumInt64Valid values validity wantMin).1 ∈ presentRows values validity ∧
          ∀ v ∈ presentRows values validity,
            Prefers wantMin (extremumInt64Valid values validity wantMin).1 v) := by
  have hones (k : ℕ) (word : Word) (hk : validity[k]? = some word) : onesCount64 word =
      (present (fun i => word.getLsbD i) 0 ((values.drop (64 * (0 + k))).take 64)).length := by
    refine onesCount64_eq (by simp) fun i hi => ?_
    by_cases hlt : i < 64
    · have hbit := h (64 * k + i) (by simp at hi; omega)
      rw [bitAt_eq, show (64 * k + i) / 64 = k by omega, hk,
        show (64 * k + i) % 64 = i by omega] at hbit
      exact hbit
    · exact BitVec.getLsbD_of_ge word i (by omega)
  rw [presentRows_eq]
  refine ⟨?_, fun wantMin => ?_⟩
  · have hsum :=
      forWindows_all (fun acc l => acc.1.total.toBitVec = (l.map Int64.toBitVec).sum ∧
      acc.2 = l.length)
      values sumWindow validity (⟨0, 0, 0, 0⟩, 0)
      (fun acc l k word hk hP => by
        obtain ⟨htotal, hcount⟩ := sumWindow_spec acc word ((values.drop (64 * (0 + k))).take 64)
        rw [htotal, hcount, hP.1, hP.2, hones k word hk, List.map_append, List.sum_append,
          List.length_append]
        exact ⟨rfl, rfl⟩) ⟨rfl, rfl⟩
    refine Prod.ext (Int64.toBitVec_inj.mp ?_) hsum.2
    rw [toBitVec_ofInt_sum]
    exact hsum.1
  · have hext := forWindows_all
      (fun acc l => acc.1 = l.foldl (better wantMin) (extremumIdentity wantMin) ∧ acc.2 = l.length)
      values (extremumWindow wantMin (extremumIdentity wantMin)) validity
        (extremumIdentity wantMin, 0)
      (fun acc l k word hk hP => by
        rw [extremumWindow_spec, hP.1, List.foldl_append, List.length_append,
          ← hones k word hk, ← hP.2]
        exact ⟨rfl, rfl⟩) ⟨rfl, rfl⟩
    rw [extremumInt64Valid_eq]
    obtain ⟨hmem, -, hall⟩ :=
      foldl_better wantMin (extremumIdentity wantMin) (present (bitAt validity) 0 values)
    rw [← hext.1] at hmem hall
    refine ⟨hext.2, fun hnil => ?_, fun hne => ⟨?_, hall⟩⟩
    · rw [hnil] at hext
      exact hext.1
    · rcases hmem with heq | hmem
      · -- No row is preferred to the identity, so all of them are the identity.
        obtain ⟨v, hv⟩ := List.exists_mem_of_ne_nil _ hne
        have hle := hall v hv
        rw [heq] at hle ⊢
        rwa [prefers_antisymm hle (prefers_identity wantMin v)]
      · exact hmem

/-- The slot of a null holds garbage. -/
theorem garbage_not_summed :
    sumInt64Valid [5, 99, -3] [5] = (2, 2) ∧ (extremumInt64Valid [5, 99, -3] [5] false).1 ∈
      [5, (-3 : Int64)] := by
  have hbits : ∀ i < 64, 3 ≤ i → (5 : Word).getLsbD i = false := by decide
  have hpast : ∀ i, [5, 99, (-3 : Int64)].length ≤ i → bitAt [5] i = false := by
    intro i hi
    rw [bitAt_cons]
    split_ifs with hlt
    · exact hbits i hlt hi
    · simp [bitAt]
  have hreduced := int64_reductions [5, 99, -3] [5] hpast
  exact ⟨hreduced.1.trans (by decide), ((hreduced.2 false).2.2 (by decide)).1⟩

/-! ### Moments -/

theorem maskFloat64_eq (word : Word) (b : ℕ) (v : ℚ) :
    maskFloat64 word b v = if word.getLsbD b then v else 0 := by
  rw [maskFloat64, maskBit_eq]
  by_cases hbit : word.getLsbD b = true
  · rw [if_pos hbit, if_pos hbit, if_neg (by decide)]
  · rw [if_neg hbit, if_neg hbit, if_pos rfl]

theorem sum_sq_sub (l : List ℚ) (c : ℚ) :
    (l.map fun x => (x - c) ^ 2).sum = (l.map fun x => x ^ 2).sum - 2 * c * l.sum +
      l.length * c ^ 2 := by
  induction l with
  | nil => simp
  | cons x rest ih =>
    simp only [List.map_cons, List.sum_cons, List.length_cons, ih]
    push_cast
    ring

theorem moments_nil : moments [] = ⟨0, 0, 0⟩ := by simp [moments]

theorem moments_m2 (l : List ℚ) (hl : l ≠ []) :
    (moments l).m2 = (l.map fun x => x ^ 2).sum - l.sum ^ 2 / l.length := by
  have hlen : (l.length : ℚ) ≠ 0 := by simpa using hl
  rw [moments, sum_sq_sub]
  field_simp
  ring

theorem mergeMoments_moments (xs ys : List ℚ) :
    mergeMoments (moments xs) (moments ys) = moments (xs ++ ys) := by
  rcases eq_or_ne xs [] with rfl | hx
  · rw [moments_nil, mergeMoments, if_pos rfl, List.nil_append]
  rcases eq_or_ne ys [] with rfl | hy
  · rw [moments_nil, mergeMoments, if_neg (by simpa [moments] using hx), if_pos rfl,
      List.append_nil]
  have hxl : (xs.length : ℚ) ≠ 0 := by simpa using hx
  have hyl : (ys.length : ℚ) ≠ 0 := by simpa using hy
  have htotal : (xs.length : ℚ) + ys.length ≠ 0 := by positivity
  have hm2 := moments_m2 (xs ++ ys) (by simp [hx])
  rw [mergeMoments, if_neg (by simpa [moments] using hx), if_neg (by simpa [moments] using hy)]
  refine Moments.ext ?_ ?_ ?_
  · simp [moments]
  · simp only [moments, List.sum_append, List.length_append]
    push_cast
    field_simp
    ring
  · rw [hm2]
    dsimp only
    rw [moments_m2 xs hx, moments_m2 ys hy]
    simp only [moments, List.map_append, List.sum_append, List.length_append]
    push_cast
    field_simp
    ring

theorem countLoop_present {V : Type} (word : Word) (rows : List V) :
    (List.range rows.length).foldl (fun count b => count + ((word >>> b) &&& 1).toNat) 0 =
      (present (fun i => word.getLsbD i) 0 rows).length := by
  have h (l : List ℕ) (c : ℕ) : l.foldl (fun count b => count + ((word >>> b) &&& 1).toNat) c =
      c + (l.filter fun i => word.getLsbD i).length := by
    induction l generalizing c with
    | nil => rfl
    | cons b rest ih =>
      rw [List.foldl_cons, ih, and_one_eq, List.filter_cons]
      split_ifs
      · rw [List.length_cons, show (1 : Word).toNat = 1 from rfl]
        omega
      · rfl
  rw [h, length_present, Nat.zero_add, List.range_eq_range']

theorem total_present {f : ℕ → ℚ → ℚ} {g : ℚ → ℚ} {rows : List ℚ}
    (hf : ∀ b v, f b v = if word.getLsbD b then g v else 0) :
    (accumulate f 0 ⟨0, 0, 0, 0⟩ rows).total =
      ((present (fun i => word.getLsbD i) 0 rows).map g).sum := by
  have htotal := accumulate_total (fun a : ℚ => a) (fun _ _ => rfl) f 0 ⟨0, 0, 0, 0⟩ rows
  simp only [hf, sum_present] at htotal
  rw [htotal, Lanes.total]
  simp

theorem momentsWindow_spec (l : List ℚ) {rows : List ℚ} :
    momentsWindow (moments l) word rows =
      moments (l ++ present (fun i => word.getLsbD i) 0 rows) := by
  rw [momentsWindow, countLoop_present]
  by_cases hnone : (present (fun i => word.getLsbD i) 0 rows).length = 0
  · rw [if_pos hnone, List.length_eq_zero_iff.mp hnone, List.append_nil]
  · have hsum : (accumulate (maskFloat64 word) 0 ⟨0, 0, 0, 0⟩ rows).total =
        (present (fun i => word.getLsbD i) 0 rows).sum := by
      rw [total_present (g := id) fun b v => maskFloat64_eq word b v, List.map_id]
    have hsq (mean : ℚ) :
        (accumulate (fun b v => maskFloat64 word b (v - mean) * maskFloat64 word b (v - mean)) 0
        ⟨0, 0, 0, 0⟩ rows).total = ((present (fun i => word.getLsbD i) 0 rows).map fun x =>
          (x - mean) ^ 2).sum := by
      refine total_present fun b v => ?_
      rw [maskFloat64_eq]
      split_ifs
      · ring
      · ring
    rw [if_neg hnone, hsum, ← mergeMoments_moments]
    dsimp only
    rw [hsq]
    rfl

/-- Merging is the operation of a monoid, and the moments of a column are those of its present rows.
-/
theorem moments_homomorphism :
    (∀ xs ys, mergeMoments (moments xs) (moments ys) = moments (xs ++ ys)) ∧
    (∀ xs ys zs, mergeMoments (mergeMoments (moments xs) (moments ys)) (moments zs) =
      mergeMoments (moments xs) (mergeMoments (moments ys) (moments zs))) ∧
    (∀ xs ys, mergeMoments (moments xs) (moments ys) = mergeMoments (moments ys) (moments xs)) ∧
    (∀ xs, mergeMoments ⟨0, 0, 0⟩ (moments xs) = moments xs ∧ mergeMoments (moments xs) ⟨0, 0, 0⟩ =
      moments xs) ∧
    ∀ values validity, momentsFloat64Valid values validity =
      moments (presentRows values validity) := by
  refine ⟨mergeMoments_moments, fun xs ys zs => ?_, fun xs ys => ?_, fun xs => ⟨?_, ?_⟩,
    fun values validity => ?_⟩
  · rw [mergeMoments_moments, mergeMoments_moments, mergeMoments_moments, mergeMoments_moments,
      List.append_assoc]
  · have hperm : (xs ++ ys).Perm (ys ++ xs) := List.perm_append_comm
    rw [mergeMoments_moments, mergeMoments_moments, moments, moments, hperm.length_eq, hperm.sum_eq,
      (hperm.map _).sum_eq]
  · rw [← moments_nil, mergeMoments_moments, List.nil_append]
  · rw [← moments_nil, mergeMoments_moments, List.append_nil]
  · have hrule :=
      forWindows_all (fun acc l => acc = moments l) values momentsWindow validity ⟨0, 0, 0⟩
      (fun acc l k word _ hP => by rw [hP, momentsWindow_spec]) moments_nil.symm
    rw [presentRows_eq, ← hrule, momentsFloat64Valid]

end Foundation.Hermes
