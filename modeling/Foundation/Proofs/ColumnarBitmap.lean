import Foundation.Lib.Simulation
import Foundation.Spec.ColumnarBitmap

/-! Packed bitmaps refine finite sets of rows. The unrolled kernels work word by word, no operation
leaves a bit past the last row, and what an operation does to the bits is what the set operation
does to the members. -/

namespace Foundation.Hermes.PackedBitmap

open PackedBits

/-! ### The unrolled kernels -/

theorem countLoop_eq (c0 c1 c2 c3 : ℕ) (ws : List Word) :
    countLoop c0 c1 c2 c3 ws = c0 + c1 + c2 + c3 + PackedBits.popcountWords ws := by
  have htail (ws : List Word) (c : ℕ) :
      ws.foldl (fun total w => total + onesCount64 w) c = c + PackedBits.popcountWords ws := by
    induction ws generalizing c with
    | nil => rfl
    | cons w ws ih =>
      rw [List.foldl_cons, ih, Nat.add_assoc]
      rfl
  fun_induction countLoop c0 c1 c2 c3 ws with
  | case1 c0 c1 c2 c3 a b c d rest ih =>
    rw [ih]
    simp only [PackedBits.popcountWords, onesCount64, List.map_cons, List.sum_cons]
    omega
  | case2 c0 c1 c2 c3 rest hshort =>
    rw [htail]
    omega

theorem binaryLoop_eq (op : Word → Word → Word) (dst src : List Word) :
    binaryLoop op dst src = List.zipWith op dst src := by
  fun_induction binaryLoop op dst src with
  | case1 a b c d dst a' b' c' d' src ih =>
    rw [ih]
    rfl
  | case2 dst src hshort => rfl

theorem notWords_eq (ws : List Word) : notWords ws = ws.map (~~~·) := by
  fun_induction notWords ws with
  | case1 a b c d rest ih =>
    rw [ih]
    rfl
  | case2 rest hshort => rfl

theorem popcountWords_eq (hooks : Hooks) (ws : List Word) :
    popcountWords hooks ws = PackedBits.popcountWords ws := by
  have hloop := countLoop_eq 0 0 0 0 ws
  rw [popcountWords]
  cases hc : hooks.count ws with
  | none =>
    rw [Option.getD_none, hloop]
    omega
  | some c =>
    rw [Option.getD_some, hooks.count_exact ws c hc, hloop]
    omega

theorem binaryWords_eq (hooks : Hooks) (op : BitmapOp) {dst src : List Word} (reserved : List Word)
    (h : src.length = dst.length) :
    binaryWords hooks op dst src reserved = some (List.zipWith op.apply dst src) := by
  rw [binaryWords, if_pos (by omega), ← h, List.take_left]
  cases hc : hooks.binary op dst src with
  | none =>
    dsimp only
    rw [hc, Option.getD_none, binaryLoop_eq]
  | some out =>
    dsimp only
    rw [hc, Option.getD_some, hooks.binary_exact op dst src out hc, binaryLoop_eq]

/-! ### Bits -/

/-- What an operation on words does to each bit. -/
def BitmapOp.bit : BitmapOp → Bool → Bool → Bool
  | .and => fun a b => a && b
  | .or => fun a b => a || b
  | .andNot => fun a b => a && !b

theorem bitAt_zipWith (op : BitmapOp) {ws vs : List Word} (h : vs.length = ws.length) (i : ℕ) :
    bitAt (List.zipWith op.apply ws vs) i = op.bit (bitAt ws i) (bitAt vs i) := by
  rw [bitAt_eq, bitAt_eq, bitAt_eq, List.getElem?_zipWith]
  by_cases hi : i / 64 < ws.length
  · rw [List.getElem?_eq_getElem hi, List.getElem?_eq_getElem (h ▸ hi)]
    have hlt : i % 64 < 64 := Nat.mod_lt i (by decide)
    cases op <;> simp [BitmapOp.apply, BitmapOp.bit, hlt]
  · rw [List.getElem?_eq_none (by omega), List.getElem?_eq_none (by omega)]
    cases op <;> rfl

theorem bitAt_map_not (ws : List Word) (i : ℕ) :
    bitAt (ws.map (~~~·)) i = (decide (i / 64 < ws.length) && !bitAt ws i) := by
  have hlt : i % 64 < 64 := Nat.mod_lt i (by decide)
  rw [bitAt_eq, bitAt_eq, List.getElem?_map]
  by_cases hi : i / 64 < ws.length
  · rw [List.getElem?_eq_getElem hi]
    simp [hi, hlt]
  · rw [List.getElem?_eq_none (by omega)]
    simp [hi]

theorem getLsbD_lowMask {r : ℕ} (hr : r < 64) (j : ℕ) :
    ((1 : Word) <<< r - 1).getLsbD j = decide (j < r) := by
  have hpow : 2 ^ r < 2 ^ 64 := Nat.pow_lt_pow_right (by decide) hr
  have hshift : ((1 : Word) <<< r).toNat = 2 ^ r := by
    rw [BitVec.toNat_shiftLeft, Nat.shiftLeft_eq, show (1 : Word).toNat = 1 from rfl, Nat.one_mul,
      Nat.mod_eq_of_lt hpow]
  have hne : (1 : Word) <<< r ≠ 0 := fun h0 => by
    rw [h0] at hshift
    exact (Nat.two_pow_pos r).ne hshift
  rw [BitVec.getLsbD, (toNat_sub_one hne).1, hshift, Nat.testBit_two_pow_sub_one]

theorem bitAt_modify (ws : List Word) (k : ℕ) (f : Word → Word) (i : ℕ) :
    bitAt (ws.modify k f) i =
      if i / 64 = k ∧ k < ws.length then (f (ws.getD k 0)).getLsbD (i % 64) else bitAt ws i := by
  rw [bitAt_eq, bitAt_eq, List.getElem?_modify]
  by_cases hk : k < ws.length
  · by_cases hi : i / 64 = k
    · subst hi
      simp [hk]
    · simp [hi, Ne.symm hi]
  · rw [if_neg fun h => hk h.2]
    split_ifs with hi
    · subst hi
      rw [List.getElem?_eq_none (by omega)]
      rfl
    · simp

theorem bitAt_clearBit (ws : List Word) (i j : ℕ) :
    bitAt (clearBit ws i) j = (bitAt ws j && decide (j ≠ i)) := by
  have hlt : j % 64 < 64 := Nat.mod_lt j (by decide)
  rw [clearBit, bitAt_modify]
  split_ifs with h
  · rw [BitVec.getLsbD_and, BitVec.getLsbD_not, getLsbD_one_shift _ _ (Nat.mod_lt i (by decide)),
      ← h.1, ← bitAt]
    simp only [hlt, decide_true, Bool.true_and, ← decide_not]
    congr 2
    exact propext (by omega)
  · by_cases hj : j = i
    · subst hj
      have hout : ¬ j / 64 < ws.length := fun hlt => h ⟨rfl, hlt⟩
      simp [bitAt_eq, List.getElem?_eq_none (not_lt.mp hout)]
    · simp [hj]

/-! ### Bitmaps and sets -/

/-- The words of a bitmap are those of the set, and just as many as its rows take. -/
structure Holds (b : PackedBitmap) (S : RowSet) : Prop where
  n_eq : b.n = S.n
  length_eq : b.words.length = wordCount S.n
  bits : ∀ i, bitAt b.words i = true ↔ i ∈ S.members

variable {b o : PackedBitmap} {S T : RowSet}

theorem grow_n (S : RowSet) (newN : ℤ) : (S.grow newN).n = max S.n newN.toNat := rfl

theorem Holds.below (h : Holds b S) {i : ℕ} (hi : S.n ≤ i) : bitAt b.words i = false := by
  rw [Bool.eq_false_iff]
  exact fun hbit => absurd (S.below i ((h.bits i).mp hbit)) (not_lt.mpr hi)

theorem holds_newBitmap (n : ℤ) (hempty : ∀ i ∈ (∅ : Finset ℕ), i < n.toNat) :
    Holds (.newBitmap n) ⟨n.toNat, ∅, hempty⟩ :=
  ⟨rfl, List.length_replicate, fun i => by
    rw [newBitmap, bitAt_replicate]
    simp⟩

theorem Holds.clone (h : Holds b S) : Holds b.clone S := ⟨h.n_eq, h.length_eq, h.bits⟩

theorem Holds.grow (h : Holds b S) (newN : ℤ) : Holds (b.grow newN) (S.grow newN) := by
  rw [PackedBitmap.grow]
  have hn := h.n_eq
  have hlen := h.length_eq
  unfold wordCount at hlen
  split_ifs with hle
  · have hmax : max S.n newN.toNat = S.n := by omega
    exact ⟨hn.trans hmax.symm, by rw [h.length_eq, grow_n, hmax], h.bits⟩
  · have hmax : max S.n newN.toNat = newN.toNat := by omega
    -- Wherever the words come from, zero words are added up to the new number.
    have hwords : Holds ⟨b.words ++ List.replicate (wordCount newN.toNat - b.words.length) 0,
        [], newN.toNat⟩
        (S.grow newN) := by
      refine ⟨hmax.symm, ?_, fun i => ?_⟩
      · rw [List.length_append, List.length_replicate, grow_n, hmax]
        unfold wordCount
        omega
      · rw [bitAt_append_zeros]
        exact h.bits i
    extract_lets reqWords words
    split_ifs with hmore hroom
    · have hwords_eq : words.take b.words.length = b.words := by
        rw [List.take_take, Nat.min_eq_left hmore.le, List.take_left]
      rw [hwords_eq]
      exact ⟨hwords.n_eq, hwords.length_eq, hwords.bits⟩
    · exact ⟨hwords.n_eq, hwords.length_eq, hwords.bits⟩
    · have hzero : wordCount newN.toNat - b.words.length = 0 :=
        Nat.sub_eq_zero_of_le (not_lt.mp hmore)
      rw [hzero, List.replicate_zero, List.append_nil] at hwords
      exact ⟨hwords.n_eq, hwords.length_eq, hwords.bits⟩

theorem Holds.set (h : Holds b S) (i : ℤ) : Holds (b.set i) (S.insert i) := by
  rw [PackedBitmap.set, RowSet.insert]
  by_cases hneg : i < 0
  · rw [if_pos hneg, if_pos hneg]
    exact h
  rw [if_neg hneg, if_neg hneg]
  -- Either way the bitmap covers the row before its bit is raised.
  have hgrown : Holds (if (b.n : ℤ) ≤ i then b.grow (i + 1) else b) (S.grow (i + 1)) := by
    split_ifs with hle
    · exact h.grow (i + 1)
    · have hn := h.n_eq
      have hmax : max S.n (i + 1).toNat = S.n := by omega
      exact ⟨hn.trans hmax.symm, by rw [h.length_eq, grow_n, hmax], h.bits⟩
  have hrows : max S.n (i + 1).toNat = max S.n (i.toNat + 1) := by omega
  have hlen := hgrown.length_eq
  rw [grow_n, hrows] at hlen
  refine ⟨hgrown.n_eq.trans hrows, ?_, fun j => ?_⟩
  · dsimp only
    rw [setBit, List.length_modify, hlen]
  · dsimp only
    rw [bitAt_setBit, Bool.or_eq_true, decide_eq_true_eq, hgrown.bits, Finset.mem_insert]
    · exact Iff.rfl
    · rw [hlen]
      unfold wordCount
      omega

theorem Holds.clear (h : Holds b S) (i : ℤ) : Holds (b.clear i) (S.erase i) := by
  have hmem (j : ℕ) : j ∈ (S.erase i).members ↔ j ∈ S.members ∧ (j : ℤ) ≠ i := by
    rw [RowSet.erase, RowSet.keep, Finset.mem_filter, decide_eq_true_eq]
  rw [PackedBitmap.clear]
  have hn := h.n_eq
  split_ifs with hout
  · refine ⟨hn, h.length_eq, fun j => ?_⟩
    rw [hmem, h.bits]
    refine (and_iff_left_of_imp fun hj heq => ?_).symm
    have hbelow := S.below j hj
    have hlen := h.length_eq
    unfold wordCount at hlen
    omega
  · refine ⟨hn, ?_, fun j => ?_⟩
    · dsimp only
      rw [clearBit, List.length_modify, h.length_eq]
      rfl
    · dsimp only
      rw [bitAt_clearBit, Bool.and_eq_true, h.bits, hmem, decide_eq_true_eq]
      exact and_congr_right fun _ => not_congr (by omega)

theorem Holds.tailMask (hn : b.n = S.n) (hlen : b.words.length = wordCount S.n)
    (hbits : ∀ i < S.n, bitAt b.words i = true ↔ i ∈ S.members) : Holds b.tailMask S := by
  unfold wordCount at hlen
  have hpast (i : ℕ) (hi : S.n ≤ i) : i ∉ S.members :=
    fun hmem => absurd (S.below i hmem) (not_lt.mpr hi)
  rw [PackedBitmap.tailMask]
  split_ifs with hzero hrem
  · refine ⟨hn, hlen, fun i => ?_⟩
    have hnil : b.words = [] := hzero.elim (fun h0 => List.length_eq_zero_iff.mp (by omega)) id
    have hrows : S.n = 0 := by
      rw [hnil, List.length_nil] at hlen
      omega
    simp [hnil, bitAt, hpast i (by omega)]
  · refine ⟨hn, ?_, fun i => ?_⟩
    · dsimp only
      rw [List.length_modify, hlen]
      rfl
    · have hr : b.n % 64 < 64 := Nat.mod_lt _ (by decide)
      dsimp only
      rw [bitAt_modify]
      split_ifs with hi
      · rw [BitVec.getLsbD_and, getLsbD_lowMask hr, ← hi.1, ← bitAt, Bool.and_eq_true,
          decide_eq_true_eq]
        by_cases hlt : i < S.n
        · rw [hbits i hlt]
          exact and_iff_left_of_imp fun _ => by omega
        · exact iff_of_false (fun hand => by omega) (hpast i (by omega))
      · by_cases hlt : i < S.n
        · exact hbits i hlt
        · refine iff_of_false ?_ (hpast i (by omega))
          rw [bitAt_eq, List.getElem?_eq_none (by omega)]
          simp
  · refine ⟨hn, hlen, fun i => ?_⟩
    by_cases hlt : i < S.n
    · exact hbits i hlt
    · refine iff_of_false ?_ (hpast i (by omega))
      rw [bitAt_eq, List.getElem?_eq_none (by omega)]
      simp

theorem Holds.not (h : Holds b S) : Holds b.not S.compl := by
  rw [PackedBitmap.not, notWords_eq]
  refine Holds.tailMask h.n_eq (by rw [List.length_map]; exact h.length_eq) fun i hi => ?_
  have hlen := h.length_eq
  change i < S.n at hi
  unfold wordCount at hlen
  rw [bitAt_map_not, decide_eq_true (by omega), Bool.true_and, Bool.not_eq_true',
    ← Bool.not_eq_true, h.bits,
    RowSet.compl, Finset.mem_sdiff, Finset.mem_range]
  exact (and_iff_right hi).symm

theorem Holds.combine (hooks : Hooks) (op : BitmapOp) (h : Holds b S) (ho : Holds o T) :
    (∃ b', b.combine hooks op o = .ok b' ∧ Holds b' (S.combine T op)) ∨
      (∃ n n', b.combine hooks op o = .error (.differentRows n n')) ∧ S.combine T op = S := by
  by_cases hn : S.n = T.n
  · have hlen : o.words.length = b.words.length := by rw [ho.length_eq, h.length_eq, hn]
    have hrows : ¬ b.n ≠ o.n := not_not.mpr (by rw [h.n_eq, ho.n_eq, hn])
    refine .inl ⟨{ b with words := List.zipWith op.apply b.words o.words }, ?_, ?_⟩
    · rw [PackedBitmap.combine, if_neg hrows, binaryWords_eq hooks op _ hlen]
    · rw [RowSet.combine, dif_pos hn]
      refine ⟨?_, ?_, fun i => ?_⟩
      · cases op <;> exact h.n_eq
      · rw [List.length_zipWith, hlen, Nat.min_self, h.length_eq]
        cases op <;> rfl
      · rw [bitAt_zipWith op hlen]
        have hb := h.bits i
        have ht := ho.bits i
        cases op with
        | and => rw [BitmapOp.bit, Bool.and_eq_true, hb, ht, Finset.mem_inter]
        | or => rw [BitmapOp.bit, Bool.or_eq_true, hb, ht, Finset.mem_union]
        | andNot =>
          rw [BitmapOp.bit, Bool.and_eq_true, Bool.not_eq_true', ← Bool.not_eq_true, hb, ht,
            Finset.mem_sdiff]
  · refine .inr ⟨⟨b.n, o.n, ?_⟩, dif_neg hn⟩
    rw [PackedBitmap.combine, if_pos (by rwa [h.n_eq, ho.n_eq])]

theorem Holds.andClamped (hooks : Hooks) (h : Holds b S) (words : Option (List Word)) :
    ∃ b', b.andClamped hooks words = some b' ∧
      Holds b' (S.keep fun i => (words.map (bitAt · i)).getD true) := by
  cases words with
  | none =>
    refine ⟨b, rfl, h.n_eq, h.length_eq, fun i => ?_⟩
    rw [h.bits, RowSet.keep]
    simp
  | some words =>
    obtain ⟨k, hk⟩ : ∃ k, k = min words.length b.words.length := ⟨_, rfl⟩
    have hlen : (words.take k).length = (b.words.take k).length := by
      rw [List.length_take, List.length_take]
      omega
    refine ⟨{ b with
      words := List.zipWith BitmapOp.and.apply (b.words.take k) (words.take k) ++
        List.replicate (b.words.length - k) 0 }, ?_, h.n_eq, ?_, fun i => ?_⟩
    · rw [PackedBitmap.andClamped, ← hk, andWords, binaryWords_eq hooks .and _ hlen,
        Option.map_some]
    · rw [List.length_append, List.length_zipWith, List.length_replicate, List.length_take,
        List.length_take,
        RowSet.keep, ← h.length_eq]
      omega
    · have htake (ws : List Word) (i : ℕ) : bitAt (ws.take k) i =
          (decide (i / 64 < k) && bitAt ws i) := by
        rw [bitAt_eq, bitAt_eq, List.getElem?_take]
        by_cases hi : i / 64 < k <;> simp [hi]
      have hshort : bitAt b.words i = true → bitAt words i = true → i / 64 < k := by
        intro hb hw
        rw [hk, lt_min_iff]
        constructor
        · by_contra hi
          rw [bitAt_eq, List.getElem?_eq_none (by omega)] at hw
          cases hw
        · by_contra hi
          rw [bitAt_eq, List.getElem?_eq_none (by omega)] at hb
          cases hb
      rw [bitAt_append_zeros, bitAt_zipWith .and hlen, BitmapOp.bit, htake, htake, RowSet.keep,
        Finset.mem_filter,
        ← h.bits]
      simp only [Bool.and_eq_true, decide_eq_true_eq, Option.map_some, Option.getD_some]
      exact ⟨fun hand => ⟨hand.1.2, hand.2.2⟩,
        fun hand => ⟨⟨hshort hand.1 hand.2, hand.1⟩, hshort hand.1 hand.2, hand.2⟩⟩

/-! ### Enumeration -/

/-- What a callback sees of a list until it returns false. -/
def visitUntil (fn : ℕ → Bool) : List ℕ → List ℕ
  | [] => []
  | i :: rest => if fn i then i :: visitUntil fn rest else [i]

theorem visitUntil_append (fn : ℕ → Bool) (l l' : List ℕ) :
    visitUntil fn (l ++ l') = if l.all fn then l ++ visitUntil fn l' else visitUntil fn l := by
  induction l with
  | nil => rfl
  | cons i rest ih =>
    rw [List.cons_append, visitUntil, ih, visitUntil, List.all_cons]
    cases fn i
    · rfl
    · cases rest.all fn <;> rfl

theorem visitUntil_of_all {fn : ℕ → Bool} {l : List ℕ} (h : l.all fn = true) :
    visitUntil fn l = l := by
  have happend := visitUntil_append fn l []
  rwa [List.append_nil, if_pos h, visitUntil, List.append_nil] at happend

theorem visitBits_eq (fn : ℕ → Bool) (base : ℕ) (w : Word) :
    visitBits fn base w =
      (visitUntil fn ((wordBits w).map (base + ·)), ((wordBits w).map (base + ·)).all fn) := by
  fun_induction visitBits fn base w with
  | case1 => rw [wordBits_zero]; rfl
  | case2 w hw hfn visited ih =>
    rw [wordBits_eq_cons hw, List.map_cons, visitUntil, if_pos hfn, List.all_cons, hfn,
      Bool.true_and,
      show visited = _ from ih]
  | case3 w hw hfn =>
    rw [wordBits_eq_cons hw, List.map_cons, visitUntil, if_neg hfn, List.all_cons,
      Bool.eq_false_iff.mpr hfn,
      Bool.false_and]

theorem visitWords_eq (fn : ℕ → Bool) (base : ℕ) (ws : List Word) :
    visitWords fn base ws = visitUntil fn (positionsFrom base ws) := by
  induction ws generalizing base with
  | nil => rfl
  | cons w rest ih =>
    rw [visitWords, visitBits_eq, positionsFrom, visitUntil_append, ih]
    dsimp only
    split_ifs with hall
    · rw [visitUntil_of_all hall]
    · rfl

/-! ### Programs -/

/-- What the methods of a bitmap show of the set it stands for. -/
structure Represents (hooks : Hooks) (b : PackedBitmap) (S : RowSet) : Prop where
  n_eq : b.n = S.n
  tail : ∀ i, b.n ≤ i → bitAt b.words i = false
  get_iff : ∀ i : ℤ, b.get i = true ↔ 0 ≤ i ∧ i.toNat ∈ S.members
  count_eq : b.count hooks = S.members.card
  forEachSet_eq : ∀ fn, b.forEachSet fn = visitUntil fn (S.members.sort (· ≤ ·))

theorem Holds.represents (hooks : Hooks) (h : Holds b S) : Represents hooks b S where
  n_eq := h.n_eq
  tail i hi := h.below (h.n_eq ▸ hi)
  get_iff i := by
    have hn := h.n_eq
    rw [get]
    split_ifs with hout
    · refine iff_of_false (by simp) fun hin => ?_
      have hlt := S.below _ hin.2
      omega
    · rw [h.bits]
      exact (and_iff_right (by omega)).symm
  count_eq := by rw [count, popcountWords_eq, popcountWords_eq_card h.bits]
  forEachSet_eq fn := by
    rw [forEachSet, visitWords_eq, ← positions_eq_sort h.bits]
    rfl

theorem step_holds (hooks : Hooks) {bs : List PackedBitmap} {Ss : List RowSet} (op : Op)
    (h : List.Forall₂ Holds bs Ss) :
    Option.Rel (List.Forall₂ Holds) (step hooks bs op) (RowSet.step Ss op) := by
  cases op with
  | newBitmap n => exact .some (List.rel_append h (.cons (holds_newBitmap n _) .nil))
  | clone k =>
    exact rel_map (rel_getElem? h k) fun _ _ hb => List.rel_append h (.cons hb.clone .nil)
  | set k i => exact rel_map (rel_getElem? h k) fun _ _ hb => forall₂_set h k (hb.set i)
  | clear k i => exact rel_map (rel_getElem? h k) fun _ _ hb => forall₂_set h k (hb.clear i)
  | grow k newN => exact rel_map (rel_getElem? h k) fun _ _ hb => forall₂_set h k (hb.grow newN)
  | not k => exact rel_map (rel_getElem? h k) fun _ _ hb => forall₂_set h k hb.not
  | combine op k other =>
    refine rel_bind (rel_getElem? h k) fun b S hb => ?_
    have ho := rel_getElem? h other
    generalize bs[other]? = o, Ss[other]? = T at ho ⊢
    cases ho with
    | none => exact .none
    | some ho =>
      rcases hb.combine hooks op ho with ⟨b', hok, hb'⟩ | ⟨⟨n, n', herr⟩, hsame⟩
      · rw [Option.bind_some, hok]
        exact .some (forall₂_set h k hb')
      · rw [Option.bind_some, herr, Option.map_some, hsame]
        exact .some (forall₂_set h k hb)
  | andClamped k words =>
    have hb := rel_getElem? h k
    rw [step, RowSet.step]
    generalize bs[k]? = b, Ss[k]? = S at hb ⊢
    cases hb with
    | none => exact .none
    | some hb =>
      obtain ⟨b', hok, hb'⟩ := hb.andClamped hooks words
      rw [Option.bind_some, hok]
      exact .some (forall₂_set h k hb')

theorem bitmaps_refine_sets (hooks : Hooks) (ops : List Op) :
    Option.Rel (List.Forall₂ (Represents hooks)) (runSteps (step hooks) [] ops)
      (runSteps RowSet.step [] ops) := by
  have hrun := runSteps_rel (fun _ _ op h => step_holds hooks op h) List.Forall₂.nil ops
  exact rel_imp hrun fun _ _ h => h.imp fun _ _ hb => hb.represents hooks

def combining : List Op := [.newBitmap 3, .set 0 1, .clone 0, .not 1, .combine .or 0 1]

theorem bitmaps_refine_sets_without_hooks :
    Option.Rel (List.Forall₂ (Represents .none)) (runSteps (step .none) [] combining)
      (runSteps RowSet.step [] combining) ∧
      (runSteps (step .none) [] combining).map (·.map (·.count .none)) = some [3, 2] :=
  ⟨bitmaps_refine_sets .none combining, by decide +kernel⟩

end Foundation.Hermes.PackedBitmap
