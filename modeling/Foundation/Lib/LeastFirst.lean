import Mathlib.Order.Lattice
import Mathlib.Data.List.Induction

/-! A loop that keeps the best entry seen so far, replacing it only for a strictly lower
score, ends with the first of the lowest-scored entries. -/

namespace Foundation.LeastFirst

variable {α β : Type} [LinearOrder β]

/-- `a` has the lowest score of `l`, strictly lower than everything before it. -/
def FirstLeast (score : α → Option β) (l : List α) (a : α) : Prop :=
  ∃ before after s, l = before ++ a :: after ∧ score a = some s ∧
    (∀ b ∈ before, ∀ t, score b = some t → s < t) ∧ ∀ b ∈ after, ∀ t, score b = some t → s ≤ t

def keep (score : α → Option β) (best : Option (β × α)) (a : α) : Option (β × α) :=
  match score a, best with
  | none, best => best
  | some s, none => some (s, a)
  | some s, some (t, b) => if s < t then some (s, a) else some (t, b)

variable {score : α → Option β} {l : List α} {a : α}

theorem FirstLeast.mem (h : FirstLeast score l a) : a ∈ l := by
  obtain ⟨before, after, s, rfl, -⟩ := h
  simp

theorem FirstLeast.scored (h : FirstLeast score l a) : ∃ s, score a = some s := by
  obtain ⟨before, after, s, -, hs, -⟩ := h
  exact ⟨s, hs⟩

variable {b : α} {γ : Type}

theorem FirstLeast.le (h : FirstLeast score l a) {s t : β} (hb : b ∈ l) (ha : score a = some s)
    (ht : score b = some t) : s ≤ t := by
  obtain ⟨before, after, s', rfl, hs, hbefore, hafter⟩ := h
  obtain rfl : s' = s := Option.some_inj.mp (hs.symm.trans ha)
  rcases List.mem_append.mp hb with hb | hb
  · exact (hbefore b hb t ht).le
  · rcases List.mem_cons.mp hb with rfl | hb
    · exact (Option.some_inj.mp (hs.symm.trans ht)).le
    · exact hafter b hb t ht

theorem FirstLeast.snoc_of_le (h : FirstLeast score l a) {s : β} (ha : score a = some s)
    (hb : ∀ t, score b = some t → s ≤ t) : FirstLeast score (l ++ [b]) a := by
  obtain ⟨before, after, s', rfl, hs, hbefore, hafter⟩ := h
  obtain rfl : s' = s := Option.some_inj.mp (hs.symm.trans ha)
  refine ⟨before, after ++ [b], s', by simp, hs, hbefore, fun c hc t ht => ?_⟩
  rcases List.mem_append.mp hc with hc | hc
  · exact hafter c hc t ht
  · exact hb t (List.mem_singleton.mp hc ▸ ht)

theorem FirstLeast.unique (ha : FirstLeast score l a) (hb : FirstLeast score l b) : a = b := by
  obtain ⟨before, after, s, rfl, hs, hbefore, hafter⟩ := ha
  obtain ⟨before', after', t, heq, ht, hbefore', hafter'⟩ := hb
  rcases List.append_eq_append_iff.mp heq with ⟨mid, rfl, hmid⟩ | ⟨mid, rfl, hmid⟩
  · cases mid with
    | nil => exact (List.cons.inj hmid).1
    | cons c mid =>
      obtain ⟨rfl, rfl⟩ := List.cons.inj hmid
      exact absurd (hbefore' a (by simp) s hs) (not_lt.mpr (hafter b (by simp) t ht))
  · cases mid with
    | nil => exact (List.cons.inj hmid).1.symm
    | cons c mid =>
      obtain ⟨rfl, rfl⟩ := List.cons.inj hmid
      exact absurd (hbefore b (by simp) t ht) (not_lt.mpr (hafter' a (by simp) s hs))

/-- What the loop holds after `l`. -/
def Kept (score : α → Option β) (l : List α) : Option (β × α) → Prop
  | none => ∀ a ∈ l, score a = none
  | some (s, a) => FirstLeast score l a ∧ score a = some s

theorem Kept.snoc {best : Option (β × α)} (h : Kept score l best) (b : α) :
    Kept score (l ++ [b]) (keep score best b) := by
  cases hb : score b with
  | none =>
    have hkeep : keep score best b = best := by simp [keep, hb]
    rw [hkeep]
    cases best with
    | none =>
      intro c hc
      rcases List.mem_append.mp hc with hc | hc
      · exact h c hc
      · exact List.mem_singleton.mp hc ▸ hb
    | some best => exact ⟨h.1.snoc_of_le h.2 (by simp [hb]), h.2⟩
  | some s =>
    cases best with
    | none =>
      have hkeep : keep score none b = some (s, b) := by simp [keep, hb]
      rw [hkeep]
      refine ⟨⟨l, [], s, rfl, hb, fun c hc t ht => ?_, by simp⟩, hb⟩
      rw [h c hc] at ht
      cases ht
    | some best =>
      obtain ⟨t, a⟩ := best
      by_cases hst : s < t
      · have hkeep : keep score (some (t, a)) b = some (s, b) := by simp [keep, hb, hst]
        rw [hkeep]
        exact ⟨⟨l, [], s, rfl, hb, fun c hc u hu => hst.trans_le (h.1.le hc h.2 hu), by simp⟩, hb⟩
      · have hkeep : keep score (some (t, a)) b = some (t, a) := by simp [keep, hb, hst]
        rw [hkeep]
        refine ⟨h.1.snoc_of_le h.2 fun u hu => ?_, h.2⟩
        rw [hb] at hu
        cases hu
        exact not_lt.mp hst

theorem kept_foldl (score : α → Option β) (l : List α) :
    Kept score l (l.foldl (keep score) none) := by
  induction l using List.reverseRecOn with
  | nil => exact fun a ha => absurd ha List.not_mem_nil
  | append_singleton l a ih =>
    rw [List.foldl_append, List.foldl_cons, List.foldl_nil]
    exact ih.snoc a

theorem foldl_eq_none (score : α → Option β) (l : List α) :
    l.foldl (keep score) none = none ↔ ∀ a ∈ l, score a = none := by
  have h := kept_foldl score l
  constructor
  · intro hnone
    rwa [hnone] at h
  · intro hall
    cases hbest : l.foldl (keep score) none with
    | none => rfl
    | some best =>
      rw [hbest] at h
      exact absurd ((hall _ h.1.mem).symm.trans h.2) nofun

theorem foldl_map_snd (score : α → Option β) (l : List α) (a : α) :
    (l.foldl (keep score) none).map Prod.snd = some a ↔ FirstLeast score l a := by
  have h := kept_foldl score l
  cases hbest : l.foldl (keep score) none with
  | none =>
    rw [hbest] at h
    constructor
    · exact nofun
    · rintro ⟨before, after, s, rfl, hs, -⟩
      exact absurd ((h a (by simp)).symm.trans hs) nofun
  | some best =>
    rw [hbest] at h
    simp only [Option.map_some, Option.some.injEq]
    exact ⟨fun heq => heq ▸ h.1, fun ha => h.1.unique ha⟩

/-- Two scores of the same entries that rank them alike. -/
structure SameRanking {γ : Type} [LinearOrder γ] (score : α → Option β) (score' : α → Option γ)
    (l : List α) : Prop where
  isSome_eq : ∀ a ∈ l, (score a).isSome = (score' a).isSome
  lt_iff : ∀ a ∈ l, ∀ b ∈ l, ∀ s t s' t', score a = some s → score b = some t → score' a = some s' →
    score' b = some t' → (s < t ↔ s' < t')

theorem SameRanking.symm [LinearOrder γ] {score' : α → Option γ} (h : SameRanking score score' l) :
    SameRanking score' score l :=
  ⟨fun a ha => (h.isSome_eq a ha).symm, fun a ha b hb s t s' t' hs ht hs' ht' =>
    (h.lt_iff a ha b hb s' t' s t hs' ht' hs ht).symm⟩

theorem SameRanking.firstLeast [LinearOrder γ] {score' : α → Option γ}
    (h : SameRanking score score' l) (ha : FirstLeast score l a) : FirstLeast score' l a := by
  obtain ⟨before, after, s, rfl, hs, hbefore, hafter⟩ := ha
  have scored : ∀ b ∈ before ++ a :: after, ∀ t', score' b = some t' → ∃ t, score b = some t := by
    intro b hb t' ht'
    refine Option.isSome_iff_exists.mp ?_
    rw [h.isSome_eq b hb, ht']
    rfl
  have ha : a ∈ before ++ a :: after := List.mem_append_right _ List.mem_cons_self
  have hsome : (score' a).isSome = true := by
    rw [← h.isSome_eq a ha, hs]
    rfl
  obtain ⟨s', hs'⟩ := Option.isSome_iff_exists.mp hsome
  refine ⟨before, after, s', rfl, hs', fun b hb t' ht' => ?_, fun b hb t' ht' => ?_⟩
  · have hmem : b ∈ before ++ a :: after := List.mem_append_left _ hb
    obtain ⟨t, ht⟩ := scored b hmem t' ht'
    exact (h.lt_iff a ha b hmem s t s' t' hs ht hs' ht').mp (hbefore b hb t ht)
  · have hmem : b ∈ before ++ a :: after := List.mem_append_right _ (List.mem_cons_of_mem _ hb)
    obtain ⟨t, ht⟩ := scored b hmem t' ht'
    rw [← not_lt, ← h.lt_iff b hmem a ha t s t' s' ht hs ht' hs', not_lt]
    exact hafter b hb t ht

theorem SameRanking.firstLeast_iff [LinearOrder γ] {score' : α → Option γ}
    (h : SameRanking score score' l) : FirstLeast score l a ↔ FirstLeast score' l a :=
  ⟨h.firstLeast, h.symm.firstLeast⟩

/-- A strictly monotone reading of the scores does not move the minimum. -/
theorem firstLeast_map_score [LinearOrder γ] {key : β → γ} (hkey : StrictMono key) :
    FirstLeast (fun a => (score a).map key) l a ↔ FirstLeast score l a := by
  refine (SameRanking.firstLeast_iff ⟨fun a _ => ?_,
    fun a _ b _ s t s' t' hs ht hs' ht' => ?_⟩).symm
  · rw [Option.isSome_map]
  · rw [hs, Option.map_some, Option.some_inj] at hs'
    rw [ht, Option.map_some, Option.some_inj] at ht'
    rw [← hs', ← ht', hkey.lt_iff_lt]

end Foundation.LeastFirst
