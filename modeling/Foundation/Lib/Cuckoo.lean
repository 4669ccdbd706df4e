import Mathlib.Algebra.BigOperators.Group.Finset.Basic
import Mathlib.Data.Fintype.Prod
import Mathlib.Data.List.FinRange
import Mathlib.Data.Sym.Sym2
import Mathlib.Tactic

/-! Cuckoo tables: an entry lies in one of the two buckets that its fingerprint pairs. Entries of
one fingerprint and one pair are of one class, and a table keeps at most one of each. -/

namespace Foundation.Cuckoo

variable {B F S R : Type} {w : ℕ}

/-- How slots are read, and the pairing of the buckets. -/
structure Scheme (B F S : Type) where
  empty : S
  fp : S → F
  alt : F → B → B
  alt_alt : ∀ f b, alt f (alt f b) = b

/-- A walk: the generator of its kicks, and what the path keeps of a bucket. -/
structure Walk (B R : Type) (w : ℕ) where
  next : R → R
  pick : R → Fin w
  keep : B → B

abbrev Table (B S : Type) (w : ℕ) := B × Fin w → S

inductive Outcome (S : Type) where
  | merged (s : S)
  | added
  | refused
  | cycled
deriving DecidableEq, Repr

def slotWhere (t : Table B S w) (p : S → Bool) (b : B) : Option (B × Fin w) :=
  ((List.finRange w).find? fun slot => p (t (b, slot))).map (b, ·)

def undo [DecidableEq B] (t : Table B S w) (path : List ((B × Fin w) × S)) : Table B S w :=
  path.foldl (fun t kick => Function.update t kick.1 kick.2) t

namespace Scheme

variable (c : Scheme B F S) [DecidableEq B] [DecidableEq F] [DecidableEq S]

/-- The slot of a fingerprint in its two buckets, the given one first. -/
def locate (t : Table B S w) (f : F) (b : B) : Option (B × Fin w) :=
  (slotWhere t (fun s => s ≠ c.empty && c.fp s = f) b).or
    (slotWhere t (fun s => s ≠ c.empty && c.fp s = f) (c.alt f b))

def displace (walk : Walk B R w) : ℕ → R → B → S → Table B S w → List ((B × Fin w) × S) →
  Bool × Table B S w
  | 0, _, _, _, t, path => (false, undo t path)
  | kicks + 1, rng, b, entry, t, path =>
    let rng := walk.next rng
    let slot := walk.pick rng
    let victim := t (b, slot)
    let kicked := Function.update t (b, slot) entry
    let other := c.alt (c.fp victim) b
    match slotWhere kicked (· = c.empty) other with
    | some i => (true, Function.update kicked i victim)
    | none => displace walk kicks rng other victim kicked (((walk.keep b, slot), victim) :: path)

/-- Merge into the slot of the class, or take an empty slot of the two buckets if there is room, or
displace. -/
def upsert (walk : Walk B R w) (kicks : ℕ) (room : Bool) (t : Table B S w) (f : F) (b : B)
    (seed : R) (entry : S) (merge : S → S) : Outcome S × Table B S w :=
  match c.locate t f b with
  | some i => (.merged (merge (t i)), Function.update t i (merge (t i)))
  | none =>
    if room then
      match (slotWhere t (· = c.empty) b).or (slotWhere t (· = c.empty) (c.alt f b)) with
      | some i => (.added, Function.update t i entry)
      | none =>
        let displaced := c.displace walk kicks seed b entry t []
        (if displaced.1 then .added else .cycled, displaced.2)
    else (.refused, t)

end Scheme

/-! ### Finding a slot -/

variable {i : B × Fin w}

theorem slotWhere_some {t : Table B S w} {p : S → Bool} {b : B} (h : slotWhere t p b = some i) :
    i.1 = b ∧ p (t i) := by
  obtain ⟨slot, hfind, rfl⟩ := Option.map_eq_some_iff.mp h
  exact ⟨rfl, List.find?_some (p := fun slot => p (t (b, slot))) hfind⟩

theorem slotWhere_none {t : Table B S w} {p : S → Bool} {b : B} (h : slotWhere t p b = none)
    (slot : Fin w) :
    p (t (b, slot)) = false := by
  have hall := List.find?_eq_none.mp (Option.map_eq_none_iff.mp h) slot (List.mem_finRange slot)
  simpa using hall

section Undo

variable {c : Scheme B F S} [DecidableEq B] [DecidableEq S]

/-- A walk that fails undoes what it did. -/
theorem Scheme.displace_undone {walk : Walk B R w} (hkeep : ∀ b, walk.keep b = b) (kicks : ℕ)
    (rng : R) (b : B) (entry : S) (t : Table B S w) (path : List ((B × Fin w) × S))
    (h : (c.displace walk kicks rng b entry t path).1 = false) :
    (c.displace walk kicks rng b entry t path).2 = undo t path := by
  induction kicks generalizing rng b entry t path with
  | zero => rfl
  | succ kicks ih =>
    rw [Scheme.displace] at h ⊢
    set slot := walk.pick (walk.next rng)
    set victim := t (b, slot) with hvictim
    set kicked := Function.update t (b, slot) entry with hkicked
    set other := c.alt (c.fp victim) b
    cases hslot : slotWhere kicked (· = c.empty) other with
    | some i => simp [hslot] at h
    | none =>
      simp only [hslot] at h ⊢
      rw [ih _ _ _ _ _ h, undo, List.foldl_cons, hkeep]
      simp only [hkicked, hvictim, Function.update_idem, Function.update_eq_self]
      rfl

end Undo

/-! ### The contents of a table -/

variable {c : Scheme B F S}

namespace Scheme

/-- What the lookups of an entry depend on: its fingerprint and its pair of buckets. -/
def cls (c : Scheme B F S) (f : F) (b : B) : F × Sym2 B := (f, s(b, c.alt f b))

theorem cls_alt (f : F) (b : B) : c.cls f (c.alt f b) = c.cls f b := by
  rw [cls, cls, c.alt_alt, Sym2.eq_swap]

theorem cls_eq_iff {f g : F} {b b' : B} :
    c.cls f b = c.cls g b' ↔ f = g ∧ (b = b' ∨ b = c.alt g b') := by
  simp only [cls, Prod.mk.injEq]
  refine and_congr_right fun hfg => ?_
  subst hfg
  constructor
  · intro h
    exact (Sym2.eq_iff.mp h).imp And.left And.left
  · rintro (rfl | rfl)
    · rfl
    · rw [c.alt_alt, Sym2.eq_swap]

variable [DecidableEq S]

theorem locate_some [DecidableEq F] {t : Table B S w} {f : F} {b : B}
    (h : c.locate t f b = some i) : t i ≠ c.empty ∧ c.fp (t i) = f ∧ c.cls f i.1 = c.cls f b := by
  obtain hi | ⟨-, hi⟩ := Option.or_eq_some_iff.mp h
  all_goals
    obtain ⟨hb, hp⟩ := slotWhere_some hi
    rw [Bool.and_eq_true, decide_eq_true_eq, decide_eq_true_eq] at hp
    refine ⟨hp.1, hp.2, ?_⟩
  · rw [hb]
  · rw [hb, cls_alt]

def token (c : Scheme B F S) (b : B) (s : S) : Multiset ((F × Sym2 B) × S) :=
  if s = c.empty then 0 else {(c.cls (c.fp s) b, s)}

theorem token_alt (b : B) (s : S) : c.token (c.alt (c.fp s) b) s = c.token b s := by
  rw [token, token, cls_alt]

theorem token_of_ne {s : S} (h : s ≠ c.empty) (b : B) : c.token b s = {(c.cls (c.fp s) b, s)} :=
  if_neg h

@[simp] theorem token_empty (b : B) : c.token b c.empty = 0 := if_pos rfl

variable [Fintype B]

def contents (c : Scheme B F S) (t : Table B S w) : Multiset ((F × Sym2 B) × S) :=
  ∑ i, c.token i.1 (t i)

theorem mem_contents {t : Table B S w} {x : (F × Sym2 B) × S} :
    x ∈ c.contents t ↔ ∃ i, t i ≠ c.empty ∧ x = (c.cls (c.fp (t i)) i.1, t i) := by
  rw [contents, Multiset.mem_sum]
  refine ⟨fun ⟨i, _, hx⟩ => ?_, fun ⟨i, hne, hx⟩ => ⟨i, Finset.mem_univ i, ?_⟩⟩
  · by_cases hne : t i = c.empty
    · simp [hne] at hx
    · rw [token_of_ne hne, Multiset.mem_singleton] at hx
      exact ⟨i, hne, hx⟩
  · rw [token_of_ne hne, Multiset.mem_singleton]
    exact hx

theorem card_contents [DecidableEq B] (t : Table B S w) :
    (c.contents t).card = (Finset.univ.filter fun i => t i ≠ c.empty).card := by
  rw [contents, Multiset.card_sum, Finset.card_filter]
  refine Finset.sum_congr rfl fun i _ => ?_
  by_cases hne : t i = c.empty <;> simp [token, hne]

variable [DecidableEq B]

theorem contents_update (t : Table B S w) (i : B × Fin w) (s : S) :
    c.contents (Function.update t i s) + c.token i.1 (t i) = c.contents t + c.token i.1 s := by
  have hrest : ∑ j ∈ Finset.univ.erase i, c.token j.1 (Function.update t i s j) =
      ∑ j ∈ Finset.univ.erase i, c.token j.1 (t j) :=
    Finset.sum_congr rfl fun j hj => by rw [Function.update_of_ne (Finset.ne_of_mem_erase hj)]
  rw [contents, contents, ← Finset.add_sum_erase _ _ (Finset.mem_univ i),
    ← Finset.add_sum_erase Finset.univ (fun j => c.token j.1 (t j)) (Finset.mem_univ i), hrest,
    Function.update_self]
  abel

theorem contents_fill {t : Table B S w} (hi : t i = c.empty) (s : S) :
    c.contents (Function.update t i s) = c.contents t + c.token i.1 s := by
  simpa [hi] using c.contents_update t i s

/-! ### Displacement -/

/-- Each kick puts down the entry in hand and takes up another, whose class has the bucket it goes
to. -/
theorem displace_contents (walk : Walk B R w) (kicks : ℕ) (rng : R) (b : B) (entry : S)
    (t : Table B S w) (path : List ((B × Fin w) × S))
    (h : (c.displace walk kicks rng b entry t path).1 = true) :
    c.contents (c.displace walk kicks rng b entry t path).2 = c.contents t + c.token b entry := by
  induction kicks generalizing rng b entry t path with
  | zero => cases h
  | succ kicks ih =>
    rw [displace] at h ⊢
    set slot := walk.pick (walk.next rng)
    set victim := t (b, slot) with hvictim
    set kicked := Function.update t (b, slot) entry with hkicked
    set other := c.alt (c.fp victim) b
    have hkick : c.contents kicked + c.token other victim = c.contents t + c.token b entry := by
      rw [c.token_alt]
      exact c.contents_update t (b, slot) entry
    cases hslot : slotWhere kicked (· = c.empty) other with
    | some i =>
      obtain ⟨hbucket, hi⟩ := slotWhere_some hslot
      dsimp only
      rw [contents_fill (of_decide_eq_true hi), hbucket, hkick]
    | none =>
      simp only [hslot] at h ⊢
      rw [ih _ _ _ _ _ h, hkick]

theorem contents_vacancy {t : Table B S w} {f : F} {b : B} {entry : S} (hfp : c.fp entry = f)
    (hi : (slotWhere t (· = c.empty) b).or (slotWhere t (· = c.empty) (c.alt f b)) = some i) :
    c.contents (Function.update t i entry) = c.contents t + c.token b entry := by
  obtain hi | ⟨-, hi⟩ := Option.or_eq_some_iff.mp hi
  all_goals
    obtain ⟨hbucket, hempty⟩ := slotWhere_some hi
    rw [contents_fill (of_decide_eq_true hempty), hbucket]
  rw [← hfp, token_alt]

/-! ### The map of a table -/

/-- The table holds the entries of a partial map from the classes, each once. -/
structure Represents (c : Scheme B F S) (t : Table B S w) (m : F × Sym2 B → Option S) : Prop where
  nodup : ((c.contents t).map Prod.fst).Nodup
  mem_iff : ∀ k s, (k, s) ∈ c.contents t ↔ m k = some s

variable [DecidableEq F] {t : Table B S w} {m : F × Sym2 B → Option S} {f : F} {b : B}

omit [DecidableEq B] in
theorem Represents.locate (h : c.Represents t m) : (c.locate t f b).map t = m (c.cls f b) := by
  cases hlocate : c.locate t f b with
  | some i =>
    obtain ⟨hne, hfp, hcls⟩ := locate_some hlocate
    rw [Option.map_some, eq_comm, ← h.mem_iff, mem_contents]
    exact ⟨i, hne, by rw [hfp, hcls]⟩
  | none =>
    rw [Option.map_none, eq_comm, Option.eq_none_iff_forall_ne_some]
    intro s hs
    obtain ⟨i, hne, heq⟩ := mem_contents.mp ((h.mem_iff _ _).mpr hs)
    obtain ⟨hcls, rfl⟩ := Prod.mk.inj heq
    obtain ⟨hfp, hbucket⟩ := cls_eq_iff.mp hcls.symm
    obtain ⟨hfirst, hsecond⟩ := Option.or_eq_none_iff.mp hlocate
    obtain ⟨bucket, slot⟩ := i
    obtain rfl | rfl := hbucket
    · simpa [hne, hfp] using slotWhere_none hfirst slot
    · simpa [hne, hfp] using slotWhere_none hsecond slot

theorem Represents.add (h : c.Represents t m) {t' : Table B S w} {entry : S} (hfp : c.fp entry = f)
    (hentry : entry ≠ c.empty) (hm : m (c.cls f b) = none)
    (ht : c.contents t' = c.contents t + c.token b entry) :
    c.Represents t' (Function.update m (c.cls f b) (some entry)) := by
  rw [token_of_ne hentry, hfp] at ht
  have hfresh (s : S) : (c.cls f b, s) ∉ c.contents t := by simp [h.mem_iff, hm]
  refine ⟨?_, fun k s => ?_⟩
  · rw [ht, Multiset.map_add, Multiset.map_singleton, Multiset.add_comm, Multiset.singleton_add,
      Multiset.nodup_cons]
    refine ⟨fun hmem => ?_, h.nodup⟩
    obtain ⟨⟨k, s⟩, hs, rfl⟩ := Multiset.mem_map.mp hmem
    exact hfresh s hs
  · rw [ht, Multiset.mem_add, Multiset.mem_singleton, h.mem_iff, Prod.mk.injEq]
    rcases eq_or_ne k (c.cls f b) with rfl | hk
    · simp [hm, eq_comm]
    · simp [hk]

theorem Represents.replace (h : c.Represents t m) {s : S} (hi : c.locate t f b = some i)
    (hfp : c.fp s = f) (hs : s ≠ c.empty) :
    c.Represents (Function.update t i s) (Function.update m (c.cls f b) (some s)) := by
  obtain ⟨hne, hold, hcls⟩ := locate_some hi
  have hm : m (c.cls f b) = some (t i) := by rw [← h.locate, hi, Option.map_some]
  obtain ⟨rest, hrest⟩ := Multiset.exists_cons_of_mem ((h.mem_iff _ _).mpr hm)
  have hcontents : c.contents (Function.update t i s) = (c.cls f b, s) ::ₘ rest := by
    have hupdate := c.contents_update t i s
    rw [token_of_ne hne, token_of_ne hs, hfp, hold, hcls, hrest,
      ← Multiset.singleton_add] at hupdate
    refine add_right_cancel (hupdate.trans ?_)
    rw [← Multiset.singleton_add]
    abel
  have hclasses := h.nodup
  rw [hrest, Multiset.map_cons, Multiset.nodup_cons] at hclasses
  refine ⟨?_, fun k x => ?_⟩
  · rwa [hcontents, Multiset.map_cons, Multiset.nodup_cons]
  · have hmem := h.mem_iff k x
    rw [hrest, Multiset.mem_cons, Prod.mk.injEq] at hmem
    rw [hcontents, Multiset.mem_cons, Prod.mk.injEq]
    rcases eq_or_ne k (c.cls f b) with rfl | hk
    · have hgone : (c.cls f b, x) ∉ rest := fun hx => hclasses.1 (Multiset.mem_map.mpr ⟨_, hx, rfl⟩)
      simp [hgone, eq_comm]
    · simpa [hk] using hmem

/-- All that an `upsert` can do. -/
inductive Upserted (c : Scheme B F S) (t : Table B S w) (f : F) (b : B) (entry : S)
  (merge : S → S) :
    Outcome S × Table B S w → Prop
  | merged {i : B × Fin w} (hi : c.locate t f b = some i) :
      Upserted c t f b entry merge (.merged (merge (t i)), Function.update t i (merge (t i)))
  | added {t' : Table B S w} (hnone : c.locate t f b = none) (ht : c.contents t' = c.contents t +
    c.token b entry) :
      Upserted c t f b entry merge (.added, t')
  | refused (hnone : c.locate t f b = none) : Upserted c t f b entry merge (.refused, t)
  | cycled (hnone : c.locate t f b = none) : Upserted c t f b entry merge (.cycled, t)

theorem upserted (walk : Walk B R w) (hkeep : ∀ b, walk.keep b = b) (kicks : ℕ) (room : Bool)
    (seed : R) {entry : S} (merge : S → S) (hfp : c.fp entry = f) :
    c.Upserted t f b entry merge (c.upsert walk kicks room t f b seed entry merge) := by
  rw [upsert]
  split
  · next i hi => exact .merged hi
  · next hnone =>
    split_ifs with hroom
    · split
      · next i hi => exact .added hnone (contents_vacancy hfp hi)
      · dsimp only
        split_ifs with hmoved
        · exact .added hnone (c.displace_contents walk kicks seed b entry t [] hmoved)
        · rw [c.displace_undone hkeep kicks seed b entry t [] (Bool.eq_false_iff.mpr hmoved)]
          exact .cycled hnone
    · exact .refused hnone

variable {entry : S} {merge : S → S} {out : Outcome S × Table B S w}

theorem Upserted.unchanged (ho : c.Upserted t f b entry merge out)
    (hout : out.1 = .refused ∨ out.1 = .cycled) :
    out.2 = t := by
  cases ho with
  | merged | added => simp at hout
  | refused | cycled => rfl

theorem Upserted.card (ho : c.Upserted t f b entry merge out) (hentry : entry ≠ c.empty)
    (hmerge : ∀ s, s ≠ c.empty → c.fp s = f → merge s ≠ c.empty) :
    (c.contents out.2).card = (c.contents t).card + if out.1 = .added then 1 else 0 := by
  cases ho with
  | @merged i hi =>
    obtain ⟨hne, hold, -⟩ := locate_some hi
    have hcard := congrArg Multiset.card (c.contents_update t i (merge (t i)))
    simpa [token_of_ne hne, token_of_ne (hmerge _ hne hold)] using hcard
  | added hnone ht => simp [ht, token_of_ne hentry]
  | refused | cycled => simp

end Scheme

end Foundation.Cuckoo
