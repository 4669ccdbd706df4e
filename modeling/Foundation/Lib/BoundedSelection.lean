import Foundation.Lib.BoundedHeap
import Mathlib.Data.List.Sort

/-! What a bounded heap selects: of all elements added to it, the least ones up to its limit. -/

namespace Foundation.BoundedHeap

open Std (TransCmp OrientedCmp ReflCmp)

variable {α : Type} {cmp : α → α → Ordering}

/-! ### Swapping -/

variable {l : List α} {a b : α}

theorem swap_getElem {i j : ℕ} (hi : i < l.length) (hj : j < l.length) (k : ℕ) :
    (swap l i j)[k]? = if k = j then l[i]? else if k = i then l[j]? else l[k]? := by
  unfold swap
  rw [List.getElem?_eq_getElem hi, List.getElem?_eq_getElem hj]
  dsimp only
  rw [List.getElem?_set, List.getElem?_set, List.length_set]
  by_cases hkj : j = k
  · subst hkj
    simp [hj]
  · rw [if_neg hkj, if_neg (Ne.symm hkj)]
    by_cases hki : i = k
    · subst hki
      simp [hi]
    · rw [if_neg hki, if_neg (Ne.symm hki)]

theorem swap_perm (l : List α) (i j : ℕ) : (swap l i j).Perm l := by
  unfold swap
  split
  · rename_i a b ha hb
    obtain ⟨hi, rfl⟩ := List.getElem?_eq_some_iff.mp ha
    obtain ⟨hj, rfl⟩ := List.getElem?_eq_some_iff.mp hb
    exact List.set_set_perm hi hj
  · exact .refl l

theorem swap_length (l : List α) (i j : ℕ) : (swap l i j).length = l.length :=
  (swap_perm l i j).length_eq

variable (cmp) in
theorem siftUp_perm (fuel : ℕ) (l : List α) (child : ℕ) : (siftUp cmp fuel l child).Perm l := by
  induction fuel generalizing l child with
  | zero => exact .refl l
  | succ fuel ih =>
    unfold siftUp
    split_ifs
    · exact .refl l
    · split
      · split_ifs
        · exact (ih _ _).trans (swap_perm _ _ _)
        · exact .refl l
      · exact .refl l

variable (cmp) in
theorem siftDown_perm (fuel : ℕ) (l : List α) (parent : ℕ) :
    (siftDown cmp fuel l parent).Perm l := by
  induction fuel generalizing l parent with
  | zero => exact .refl l
  | succ fuel ih =>
    unfold siftDown
    split_ifs
    · dsimp only
      split
      · split_ifs
        · exact (ih _ _).trans (swap_perm _ _ _)
        · exact .refl l
      · exact .refl l
    · exact .refl l

/-! ### The heap order -/

variable (cmp) in
/-- The element at a position is at most its parent. -/
def Under (l : List α) (i : ℕ) : Prop :=
  ∀ c p, l[i]? = some c → l[(i - 1) / 2]? = some p → (cmp c p).isLE = true

variable (cmp) in
def IsHeap (l : List α) : Prop := ∀ i, 0 < i → Under cmp l i

variable (cmp) in
/-- The children of a position are at most its parent. -/
def Skips (l : List α) (hole : ℕ) : Prop :=
  ∀ i c g, 0 < i → (i - 1) / 2 = hole → 0 < hole → l[i]? = some c → l[(hole - 1) / 2]? = some g →
    (cmp c g).isLE = true

theorem isLE_of_ne_gt (h : ¬ cmp a b = .gt) : (cmp a b).isLE = true := Ordering.isLE_iff_ne_gt.mpr h

theorem isLE_of_gt [OrientedCmp cmp] (h : cmp a b = .gt) : (cmp b a).isLE = true := by
  rw [OrientedCmp.gt_iff_lt.mp h]
  rfl

theorem isLE_of_not_lt [OrientedCmp cmp] (h : ¬ cmp a b = .lt) : (cmp b a).isLE = true :=
  isLE_of_ne_gt fun hgt => h (OrientedCmp.gt_iff_lt.mp hgt)

theorem IsHeap.le_root [TransCmp cmp] (h : IsHeap cmp l) {root : α} (hroot : l[0]? = some root)
    {i : ℕ} {c : α} (hc : l[i]? = some c) : (cmp c root).isLE = true := by
  induction i using Nat.strong_induction_on generalizing c with
  | _ i ih =>
    rcases Nat.eq_zero_or_pos i with rfl | hi
    · rw [hroot, Option.some_inj] at hc
      rw [hc]
      exact ReflCmp.isLE_rfl
    · have hlt : (i - 1) / 2 < l.length := by
        obtain ⟨hlen, -⟩ := List.getElem?_eq_some_iff.mp hc
        omega
      have hp := List.getElem?_eq_getElem hlt
      exact TransCmp.isLE_trans (h i hi c _ hc hp) (ih _ (by omega) hp)

theorem siftUp_heap [TransCmp cmp] (fuel : ℕ) (l : List α) (child : ℕ) (hfuel : child < fuel)
    (hlen : child < l.length) (hunder : ∀ i, 0 < i → i ≠ child → Under cmp l i)
    (hskips : Skips cmp l child) :
    IsHeap cmp (siftUp cmp fuel l child) := by
  induction fuel generalizing l child with
  | zero => omega
  | succ fuel ih =>
    unfold siftUp
    split_ifs with h0
    · exact fun i hi => hunder i hi (by omega)
    · have hpar : (child - 1) / 2 < l.length := by omega
      rw [List.getElem?_eq_getElem hlen, List.getElem?_eq_getElem hpar]
      dsimp only
      have hc := List.getElem?_eq_getElem hlen
      have hp := List.getElem?_eq_getElem hpar
      generalize l[child] = c at hc ⊢
      generalize l[(child - 1) / 2] = p at hp ⊢
      split_ifs with hgt
      · -- the child moves up: its old siblings and children are below it or below its parent
        have hle := isLE_of_gt hgt
        have hat := swap_getElem hpar hlen
        have hchild : (swap l ((child - 1) / 2) child)[child]? = some p := by
          rw [hat, if_pos rfl, hp]
        have hparent : (swap l ((child - 1) / 2) child)[(child - 1) / 2]? = some c := by
          rw [hat, if_neg (by omega), if_pos rfl, hc]
        have hother : ∀ k, k ≠ child → k ≠ (child - 1) / 2 →
            (swap l ((child - 1) / 2) child)[k]? = l[k]? :=
              fun k h h' => by rw [hat, if_neg h, if_neg h']
        refine ih _ _ (by omega) (by rw [swap_length]; exact hpar) (fun i hi hne x y hx hy => ?_)
          fun i x g hi hpi hpos hx hg => ?_
        · by_cases hic : i = child
          · subst hic
            rw [hchild, Option.some_inj] at hx
            rw [hparent, Option.some_inj] at hy
            rw [← hx, ← hy]
            exact hle
          · rw [hother i hic hne] at hx
            by_cases hsib : (i - 1) / 2 = (child - 1) / 2
            · rw [hsib, hparent, Option.some_inj] at hy
              rw [← hy]
              exact TransCmp.isLE_trans (hunder i hi hic x p hx (hsib ▸ hp)) hle
            · by_cases hkid : (i - 1) / 2 = child
              · rw [hkid, hchild, Option.some_inj] at hy
                rw [← hy]
                exact hskips i x p hi hkid (by omega) hx hp
              · rw [hother _ hkid hsib] at hy
                exact hunder i hi hic x y hx hy
        · rw [hother _ (by omega) (by omega)] at hg
          have hpg := hunder ((child - 1) / 2) hpos (by omega) p g hp hg
          by_cases hic : i = child
          · subst hic
            rw [hchild, Option.some_inj] at hx
            rw [← hx]
            exact hpg
          · rw [hother i hic (by omega)] at hx
            exact TransCmp.isLE_trans (hunder i hi hic x p hx (hpi ▸ hp)) hpg
      · intro i hi x y hx hy
        by_cases hic : i = child
        · subst hic
          rw [hc, Option.some_inj] at hx
          rw [hp, Option.some_inj] at hy
          rw [← hx, ← hy]
          exact isLE_of_ne_gt hgt
        · exact hunder i hi hic x y hx hy

theorem greaterChild_spec [TransCmp cmp] {l : List α} {parent : ℕ} (h : parent < l.length / 2) :
    greaterChild cmp l parent < l.length ∧ (greaterChild cmp l parent - 1) / 2 = parent ∧
      0 < greaterChild cmp l parent ∧ ∀ i c g, 0 < i → (i - 1) / 2 = parent → l[i]? = some c →
        l[greaterChild cmp l parent]? = some g → (cmp c g).isLE = true := by
  have hl : 2 * parent + 1 < l.length := by omega
  unfold greaterChild
  rw [List.getElem?_eq_getElem hl]
  cases hr : l[2 * parent + 2]? with
  | none =>
    dsimp only
    refine ⟨hl, by omega, by omega, fun i c g hi hp hc hg => ?_⟩
    have hcases : i = 2 * parent + 1 ∨ i = 2 * parent + 2 := by omega
    rcases hcases with rfl | rfl
    · rw [hg, Option.some_inj] at hc
      rw [hc]
      exact ReflCmp.isLE_rfl
    · rw [hr] at hc
      cases hc
  | some right =>
    dsimp only
    obtain ⟨hlt, -⟩ := List.getElem?_eq_some_iff.mp hr
    split_ifs with hgt
    · refine ⟨hlt, by omega, by omega, fun i c g hi hp hc hg => ?_⟩
      have hcases : i = 2 * parent + 1 ∨ i = 2 * parent + 2 := by omega
      rcases hcases with rfl | rfl
      · rw [hr, Option.some_inj] at hg
        rw [List.getElem?_eq_getElem hl, Option.some_inj] at hc
        rw [← hg, ← hc]
        exact isLE_of_gt hgt
      · rw [hg, Option.some_inj] at hc
        rw [hc]
        exact ReflCmp.isLE_rfl
    · refine ⟨hl, by omega, by omega, fun i c g hi hp hc hg => ?_⟩
      have hcases : i = 2 * parent + 1 ∨ i = 2 * parent + 2 := by omega
      rcases hcases with rfl | rfl
      · rw [hg, Option.some_inj] at hc
        rw [hc]
        exact ReflCmp.isLE_rfl
      · rw [hr, Option.some_inj] at hc
        rw [List.getElem?_eq_getElem hl, Option.some_inj] at hg
        rw [← hg, ← hc]
        exact isLE_of_ne_gt hgt

theorem siftDown_heap [TransCmp cmp] (fuel : ℕ) (l : List α) (parent : ℕ)
    (hfuel : l.length ≤ fuel + parent) (hunder : ∀ i, 0 < i → (i - 1) / 2 ≠ parent → Under cmp l i)
    (hskips : Skips cmp l parent) :
    IsHeap cmp (siftDown cmp fuel l parent) := by
  have hleaf : l.length ≤ 2 * parent + 1 → IsHeap cmp l := fun hlen i hi x y hx hy => by
    by_cases hpi : (i - 1) / 2 = parent
    · obtain ⟨hlt, -⟩ := List.getElem?_eq_some_iff.mp hx
      omega
    · exact hunder i hi hpi x y hx hy
  induction fuel generalizing l parent with
  | zero => exact hleaf (by omega)
  | succ fuel ih =>
    unfold siftDown
    split_ifs with hlt
    · obtain ⟨hcl, hcp, hc0, hmax⟩ := @greaterChild_spec α cmp _ l parent hlt
      dsimp only
      generalize greaterChild cmp l parent = child at hcl hcp hc0 hmax ⊢
      have hpl : parent < l.length := by omega
      rw [List.getElem?_eq_getElem hpl, List.getElem?_eq_getElem hcl]
      dsimp only
      have hc := List.getElem?_eq_getElem hcl
      have hp := List.getElem?_eq_getElem hpl
      generalize l[child] = c at hc ⊢
      generalize l[parent] = p at hp ⊢
      have hmax := fun i x hi hpi hx => hmax i x c hi hpi hx hc
      split_ifs with hless
      · -- the parent moves down: the greater child is above its sibling and below the grandparent
        have hle : (cmp p c).isLE = true := by rw [hless]; rfl
        have hat := swap_getElem hpl hcl
        have hchild : (swap l parent child)[child]? = some p := by rw [hat, if_pos rfl, hp]
        have hparent : (swap l parent child)[parent]? = some c := by
          rw [hat, if_neg (by omega), if_pos rfl, hc]
        have hother : ∀ k, k ≠ child → k ≠ parent → (swap l parent child)[k]? = l[k]? :=
          fun k h h' => by
          rw [hat, if_neg h, if_neg h']
        have hunder' : ∀ i, 0 < i → (i - 1) / 2 ≠ child → Under cmp (swap l parent child) i := by
          intro i hi hne x y hx hy
          by_cases hpi : (i - 1) / 2 = parent
          · rw [hpi, hparent, Option.some_inj] at hy
            rw [← hy]
            by_cases hic : i = child
            · rw [hic, hchild, Option.some_inj] at hx
              rw [← hx]
              exact hle
            · rw [hother i hic (by omega)] at hx
              exact hmax i x hi hpi hx
          · rw [hother _ hne hpi] at hy
            by_cases hip : i = parent
            · rw [hip, hparent, Option.some_inj] at hx
              rw [← hx]
              rw [hip] at hy
              exact hskips child c y hc0 hcp (by omega) hc hy
            · rw [hother i (by rintro rfl; exact hpi hcp) hip] at hx
              exact hunder i hi hpi x y hx hy
        refine ih _ _ (by rw [swap_length]; omega) hunder' (fun i x g hi hpi hpos hx hg => ?_)
          fun hlen i hi x y hx hy => ?_
        · rw [hcp, hparent, Option.some_inj] at hg
          rw [hother i (by omega) (by omega)] at hx
          rw [← hg]
          exact hunder i hi (by omega) x c hx (hpi ▸ hc)
        · by_cases hpi : (i - 1) / 2 = child
          · obtain ⟨hlt', -⟩ := List.getElem?_eq_some_iff.mp hx
            omega
          · exact hunder' i hi hpi x y hx hy
      · intro i hi x y hx hy
        by_cases hpi : (i - 1) / 2 = parent
        · rw [hpi, hp, Option.some_inj] at hy
          rw [← hy]
          exact TransCmp.isLE_trans (hmax i x hi hpi hx) (isLE_of_not_lt hless)
        · exact hunder i hi hpi x y hx hy
    · exact hleaf (by omega)

/-! ### Adding -/

theorem IsHeap.push [TransCmp cmp] (h : IsHeap cmp l) (x : α) :
    IsHeap cmp (siftUp cmp (l.length + 1) (l ++ [x]) l.length) := by
  refine siftUp_heap _ _ _ (Nat.lt_succ_self _) (by simp) (fun i hi hne c p hc hp => ?_) fun i c g
    hi hpi hpos hc hg => ?_
  · have hlt : i < l.length := by
      obtain ⟨hlen, -⟩ := List.getElem?_eq_some_iff.mp hc
      rw [List.length_append, List.length_singleton] at hlen
      omega
    rw [List.getElem?_append_left hlt] at hc
    rw [List.getElem?_append_left (by omega)] at hp
    exact h i hi c p hc hp
  · obtain ⟨hlen, -⟩ := List.getElem?_eq_some_iff.mp hc
    rw [List.length_append, List.length_singleton] at hlen
    omega

theorem IsHeap.replace [TransCmp cmp] {root : α} {rest : List α} (h : IsHeap cmp (root :: rest))
    (x : α) :
    IsHeap cmp (siftDown cmp (rest.length + 1) (x :: rest) 0) := by
  refine siftDown_heap _ _ _ (by simp) (fun i hi hne c p hc hp => ?_) fun i c g hi hpi hpos =>
    absurd hpos (by omega)
  obtain ⟨j, rfl⟩ := Nat.exists_eq_succ_of_ne_zero hi.ne'
  obtain ⟨k, hk⟩ := Nat.exists_eq_succ_of_ne_zero hne
  have hold := h (j + 1) hi c p
  rw [hk] at hp hold
  exact hold hc hp

variable (cmp) in
/-- The elements kept of those seen: a heap within the limit, and none dropped unless it is full
and they are no smaller. -/
structure Selects (limit : ℤ) (seen kept : List α) : Prop where
  heap : 0 < limit → IsHeap cmp kept
  fits : 0 < limit → (kept.length : ℤ) ≤ limit
  split : ∃ dropped, seen.Perm (kept ++ dropped) ∧
    (dropped ≠ [] → 0 < limit ∧ (kept.length : ℤ) = limit) ∧
    ∀ a ∈ kept, ∀ b ∈ dropped, (cmp a b).isLE = true

theorem selects_nil (limit : ℤ) : Selects cmp limit [] [] :=
  ⟨fun _ i _ c p hc => (by simp at hc), fun h => h.le, [], .refl _, fun h => absurd rfl h,
    fun a ha => absurd ha List.not_mem_nil⟩

theorem Selects.add [TransCmp cmp] {limit : ℤ} {seen kept : List α}
    (h : Selects cmp limit seen kept) (x : α) :
    Selects cmp limit (seen ++ [x]) (add cmp limit kept x) := by
  obtain ⟨dropped, hperm, hfull, hle⟩ := h.split
  have hgrow : dropped = [] → (seen ++ [x]).Perm ((kept ++ [x]) ++ []) := fun hd => by
    rw [hd, List.append_nil] at hperm
    rw [List.append_nil]
    exact hperm.append_right [x]
  unfold BoundedHeap.add
  split_ifs with hlimit hroom
  · have hd : dropped = [] := by
      by_contra hne
      exact absurd (hfull hne).1 (not_lt.mpr hlimit)
    exact ⟨fun hpos => absurd hpos (not_lt.mpr hlimit), fun hpos => absurd hpos (not_lt.mpr hlimit),
      [], hgrow hd,
      fun hne => absurd rfl hne, fun _ _ b hb => absurd hb List.not_mem_nil⟩
  · rw [not_le] at hlimit
    have hd : dropped = [] := by
      by_contra hne
      exact absurd (hfull hne).2 hroom.ne
    have hsift := siftUp_perm cmp (kept.length + 1) (kept ++ [x]) kept.length
    refine ⟨fun _ => (h.heap hlimit).push x, fun _ => ?_, [],
      (hgrow hd).trans (hsift.symm.append_right []),
      fun hne => absurd rfl hne, fun _ _ b hb => absurd hb List.not_mem_nil⟩
    rw [hsift.length_eq, List.length_append, List.length_singleton]
    omega
  · rw [not_le] at hlimit
    have hlen : (kept.length : ℤ) = limit := le_antisymm (h.fits hlimit) (not_lt.mp hroom)
    cases kept with
    | nil =>
      rw [List.length_nil] at hlen
      omega
    | cons root rest =>
      have hheap := h.heap hlimit
      have hroot : ∀ a ∈ root :: rest, (cmp a root).isLE = true := fun a ha => by
        obtain ⟨i, hi⟩ := List.mem_iff_getElem?.mp ha
        exact hheap.le_root rfl hi
      dsimp only
      split_ifs with hless
      · -- the root makes way: it is above everything kept, and everything dropped is above it
        have hxr : (cmp x root).isLE = true := by rw [hless]; rfl
        have hsift := siftDown_perm cmp (rest.length + 1) (x :: rest) 0
        refine ⟨fun _ => hheap.replace x, fun _ => ?_, root :: dropped, ?_, fun _ => ⟨hlimit, ?_⟩,
          fun a ha b hb => ?_⟩
        · rw [hsift.length_eq]
          exact h.fits hlimit
        · calc (seen ++ [x]).Perm ((root :: rest ++ dropped) ++ [x]) := hperm.append_right [x]
            _ |>.Perm (x :: (root :: (rest ++ dropped))) := List.perm_append_singleton x _
            _ |>.Perm (x :: (rest ++ root :: dropped)) := List.perm_middle.symm.cons x
            _ |>.Perm (siftDown cmp (rest.length + 1) (x :: rest) 0 ++ root :: dropped) :=
              hsift.symm.append_right (root :: dropped)
        · rw [hsift.length_eq]
          exact hlen
        · have har : (cmp a root).isLE = true := by
            rcases List.mem_cons.mp (hsift.mem_iff.mp ha) with rfl | ha
            · exact hxr
            · exact hroot a (List.mem_cons_of_mem _ ha)
          rcases List.mem_cons.mp hb with rfl | hb
          · exact har
          · exact TransCmp.isLE_trans har (hle root List.mem_cons_self b hb)
      · refine ⟨fun _ => hheap, fun _ => h.fits hlimit, dropped ++ [x], ?_, fun _ => ⟨hlimit, hlen⟩,
          fun a ha b hb => ?_⟩
        · rw [← List.append_assoc]
          exact hperm.append_right [x]
        · rcases List.mem_append.mp hb with hb | hb
          · exact hle a ha b hb
          · rw [List.mem_singleton.mp hb]
            exact TransCmp.isLE_trans (hroot a ha) (isLE_of_not_lt hless)

theorem selects_foldl [TransCmp cmp] (limit : ℤ) (l : List α) :
    Selects cmp limit l (l.foldl (BoundedHeap.add cmp limit) []) := by
  induction l using List.reverseRecOn with
  | nil => exact selects_nil limit
  | append_singleton l x ih =>
    rw [List.foldl_append]
    exact ih.add x

theorem eq_of_cmp_eq [OrientedCmp cmp] (h : l.Pairwise fun a b => cmp a b = .lt) (ha : a ∈ l)
    (hb : b ∈ l) (heq : cmp a b = .eq) : a = b := by
  have hsymm : Std.Symm fun a b => cmp a b = .eq → a = b :=
    ⟨fun x y hxy hyx => (hxy (OrientedCmp.eq_symm hyx)).symm⟩
  have hpair : l.Pairwise fun a b => cmp a b = .eq → a = b := h.imp fun hlt heq => by
    rw [hlt] at heq
    cases heq
  exact hpair.forall_of_forall (fun _ _ _ => rfl) ha hb heq

theorem ne_gt_total [OrientedCmp cmp] : Std.Total fun a b => cmp a b ≠ .gt := ⟨fun a b => by
  by_contra hboth
  rw [not_or, not_ne_iff, not_ne_iff] at hboth
  rw [OrientedCmp.gt_iff_lt.mp hboth.1] at hboth
  cases hboth.2⟩

theorem ne_gt_trans [TransCmp cmp] : IsTrans α fun a b => cmp a b ≠ .gt := ⟨fun _ _ _ hab hbc =>
  Ordering.isLE_iff_ne_gt.mp (TransCmp.isLE_trans (isLE_of_ne_gt hab) (isLE_of_ne_gt hbc))⟩

theorem sort_strict [TransCmp cmp] (h : l.Pairwise fun a b => cmp a b ≠ .eq) :
    (l.insertionSort fun a b => cmp a b ≠ .gt).Pairwise fun a b => cmp a b = .lt := by
  have htotal := @ne_gt_total α cmp _
  have htrans := @ne_gt_trans α cmp _
  have hsymm : ∀ {a b : α}, cmp a b ≠ .eq → cmp b a ≠ .eq :=
    fun hne heq => hne (OrientedCmp.eq_symm heq)
  have hne := ((List.perm_insertionSort (fun a b => cmp a b ≠ .gt) l).pairwise_iff hsymm).mpr h
  refine ((List.pairwise_insertionSort (fun a b => cmp a b ≠ .gt) l).and hne).imp fun {a b} hab =>
    ?_
  cases hcmp : cmp a b with
  | lt => rfl
  | eq => exact absurd hcmp hab.2
  | gt => exact absurd hcmp hab.1

/-- The selection, sorted, is the beginning of all elements, sorted. -/
theorem Selects.sort_eq [TransCmp cmp] {limit : ℤ} {seen kept sorted : List α}
    (h : Selects cmp limit seen kept) (hperm : sorted.Perm seen)
    (hsorted : sorted.Pairwise fun a b => cmp a b = .lt) :
    kept.insertionSort (fun a b => cmp a b ≠ .gt) = if 0 < limit then
      sorted.take limit.toNat else sorted := by
  obtain ⟨dropped, hsplit, hfull, hle⟩ := h.split
  have htotal := @ne_gt_total α cmp _
  have htrans := @ne_gt_trans α cmp _
  have hk := List.pairwise_insertionSort (fun a b => cmp a b ≠ .gt) kept
  have hd := List.pairwise_insertionSort (fun a b => cmp a b ≠ .gt) dropped
  have hkp := List.perm_insertionSort (fun a b => cmp a b ≠ .gt) kept
  have hdp := List.perm_insertionSort (fun a b => cmp a b ≠ .gt) dropped
  have hcat : sorted = kept.insertionSort (fun a b => cmp a b ≠ .gt) ++
      dropped.insertionSort (fun a b => cmp a b ≠ .gt) := by
    refine @List.Perm.eq_of_pairwise α (fun a b => cmp a b ≠ .gt) _ _ ?_
      (hsorted.imp fun hlt => by rw [hlt]; decide) (List.pairwise_append.mpr ⟨hk, hd,
        fun a ha b hb => ?_⟩)
      (hperm.trans (hsplit.trans (hkp.append hdp).symm))
    · intro a b ha hb hab hba
      have hmem : b ∈ sorted := (hperm.trans (hsplit.trans (hkp.append hdp).symm)).mem_iff.mpr hb
      have heq : cmp a b = .eq := by
        cases hcmp : cmp a b with
        | lt => exact absurd (OrientedCmp.gt_iff_lt.mpr hcmp) hba
        | eq => rfl
        | gt => exact absurd hcmp hab
      exact eq_of_cmp_eq hsorted ha hmem heq
    · exact Ordering.isLE_iff_ne_gt.mp (hle a (hkp.mem_iff.mp ha) b (hdp.mem_iff.mp hb))
  rw [hcat]
  by_cases hempty : dropped = []
  · rw [hempty, List.insertionSort_nil, List.append_nil]
    split_ifs with hlimit
    · refine (List.take_of_length_le ?_).symm
      have hfits := h.fits hlimit
      rw [List.length_insertionSort]
      omega
    · rfl
  · obtain ⟨hlimit, hlen⟩ := hfull hempty
    rw [if_pos hlimit, List.take_append_of_le_length, List.take_of_length_le]
    · rw [List.length_insertionSort]
      omega
    · rw [List.length_insertionSort]
      omega

end Foundation.BoundedHeap
