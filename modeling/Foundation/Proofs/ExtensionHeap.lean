import Mathlib.Data.List.Lex
import Foundation.Spec.ExtensionHeap

/-! A clone is made of new maps, but the lists in it hold the maps that the lists of the original
hold. So the original is safe from writes to its copies exactly when none of its lists reaches a
map. -/

namespace Foundation.ExtensionHeap

/-! ### Reaching -/

variable {h : Heap}

variable {v : Value}

variable {b : Addr}

theorem Reaches.lt (hwf : h.WellFormed) (hv : Below h.next v) (hr : Reaches h v b) :
    b < h.next := by
  induction hr with
  | here a =>
    cases hv with
    | object ha => exact ha a rfl
  | item hmem _ ih =>
    cases hv with
    | list hitems => exact ih (hitems _ hmem)
  | field hl _ ih => exact ih (hwf.below _ _ _ hl)

theorem Listed.reaches (hl : Listed h v b) : Reaches h v b := by
  induction hl with
  | item hmem hr => exact .item hmem hr
  | field hf _ ih => exact .field hf ih

theorem Occurs.listed {v w : Value} (ho : Occurs h v w) (hl : Listed h w b) :
    Listed h v b := by
  induction ho with
  | here v => exact hl
  | item hmem _ ih => exact .item hmem (ih hl).reaches
  | field hf _ ih => exact .field hf (ih hl)

theorem Occurs.trans {u v w : Value} (huv : Occurs h u v) (hvw : Occurs h v w) :
    Occurs h u w := by
  induction huv with
  | here v => exact hvw
  | item hmem _ ih => exact .item hmem (ih hvw)
  | field hf _ ih => exact .field hf (ih hvw)

variable {o : Option Addr}

theorem occurs_field {key : Bytes} (hl : (h.fields o).lookup key = some v) :
    Occurs h (.object o) v := by
  cases o with
  | none => exact absurd hl (by simp [Heap.fields])
  | some a => exact .field hl (.here v)

theorem Occurs.stays_below (hwf : h.WellFormed) {v w : Value} (ho : Occurs h v w)
    (hv : Below h.next v) :
    Below h.next w := by
  induction ho with
  | here v => exact hv
  | item hmem _ ih =>
    cases hv with
    | list hitems => exact ih (hitems _ hmem)
  | field hl _ ih => exact ih (hwf.below _ _ _ hl)

/-! ### Cloning -/

variable {out : Addr}

section Cloning

variable {base : Heap}

/-- What a new map may hold: scalars, new maps, and lists without maps. -/
inductive Safe (base : Heap) : Value → Prop
  | scalar (s : Scalar) : Safe base (.scalar s)
  | object {c : Addr} : base.next ≤ c → Safe base (.object (some c))
  | list {items : List Value} : Below base.next (.list items) →
    (∀ b, ¬ Reaches base (.list items) b) →
      Safe base (.list items)

/-- The maps of `base` are as they were. -/
structure Kept (base h : Heap) : Prop where
  next_le : base.next ≤ h.next
  kept : ∀ a, a < base.next → h.maps a = base.maps a

/-- The maps of `base` are as they were, and the new ones are safe. -/
structure Apart (base h : Heap) : Prop extends Kept base h where
  safe : ∀ a, base.next ≤ a → ∀ key v, (h.maps a).lookup key = some v → Safe base v

theorem Kept.make (hK : Kept base h) : Kept base h.make.2 := by
  refine ⟨hK.next_le.trans (Nat.le_succ _), fun a ha => ?_⟩
  have hne : a ≠ h.next := (ha.trans_le hK.next_le).ne
  exact (Function.update_of_ne hne _ _).trans (hK.kept a ha)

theorem Kept.modify (hK : Kept base h) (hout : base.next ≤ out) (f : Fields → Fields) :
    Kept base (h.modify out f) :=
  ⟨hK.next_le, fun a ha => (Function.update_of_ne (ha.trans_le hout).ne _ _).trans (hK.kept a ha)⟩

theorem Kept.fields (hK : Kept base h) (ho : Below base.next (.object o)) :
    h.fields o = base.fields o := by
  cases ho with
  | object hlt =>
    cases o with
    | none => rfl
    | some a => exact hK.kept a (hlt a rfl)

theorem apart_refl (hwf : base.WellFormed) : Apart base base := by
  refine ⟨⟨le_rfl, fun _ _ => rfl⟩, fun a ha key v hl => ?_⟩
  rw [hwf.unmade a ha] at hl
  exact absurd hl (by simp)

theorem Apart.make (hA : Apart base h) : Apart base h.make.2 := by
  refine ⟨hA.toKept.make, fun a ha key v hl => ?_⟩
  change (Function.update h.maps h.next ∅ a).lookup key = some v at hl
  by_cases hne : a = h.next
  · rw [hne, Function.update_self] at hl
    exact absurd hl (by simp)
  · rw [Function.update_of_ne hne] at hl
    exact hA.safe a ha key v hl

theorem Apart.insert (hA : Apart base h) (hout : base.next ≤ out) (key : Bytes) (hv : Safe base v) :
    Apart base (h.modify out (·.insert key v)) := by
  refine ⟨hA.toKept.modify hout _, fun a ha key' w hl => ?_⟩
  change (Function.update h.maps out ((h.maps out).insert key v) a).lookup key' = some w at hl
  by_cases hne : a = out
  · rw [hne, Function.update_self, GoMap.lookup_insert_if] at hl
    split_ifs at hl
    · exact Option.some.inj hl ▸ hv
    · exact hA.safe out hout key' w hl
  · rw [Function.update_of_ne hne] at hl
    exact hA.safe a ha key' w hl

/-- A call that clones old objects without maps in their lists. -/
def Clones (base : Heap) (clone : Heap → Option Addr → Option (Addr × Heap)) : Prop :=
  ∀ h o c h', Apart base h → Below base.next (.object o) → (∀ b, ¬ Listed base (.object o) b) →
    clone h o = some (c, h') → Apart base h' ∧ base.next ≤ c

theorem cloneValue_safe {clone : Heap → Option Addr → Option (Addr × Heap)}
    (hclone : Clones base clone) {h h' : Heap} {v w : Value} (hA : Apart base h)
    (hv : Below base.next v) (hno : ∀ b, ¬ Listed base v b)
    (heq : cloneValue clone h v = some (w, h')) : Apart base h' ∧ Safe base w := by
  cases v with
  | scalar s =>
    obtain ⟨rfl, rfl⟩ := Prod.mk.inj (Option.some.inj heq)
    exact ⟨hA, .scalar s⟩
  | list items =>
    obtain ⟨rfl, rfl⟩ := Prod.mk.inj (Option.some.inj heq)
    refine ⟨hA, .list hv fun b hr => ?_⟩
    cases hr with
    | item hmem hr => exact hno b (.item hmem hr)
  | object ref =>
    obtain ⟨⟨c, h''⟩, hc, hpair⟩ := Option.map_eq_some_iff.mp heq
    obtain ⟨rfl, rfl⟩ := Prod.mk.inj hpair
    obtain ⟨hA', hle⟩ := hclone h ref c _ hA hv hno hc
    exact ⟨hA', .object hle⟩

theorem cloneFields_apart {clone : Heap → Option Addr → Option (Addr × Heap)}
    (hclone : Clones base clone) (hout : base.next ≤ out) {fields : List (Bytes × Value)}
    (hfields : ∀ f ∈ fields, Below base.next f.2 ∧ ∀ b, ¬ Listed base f.2 b) {h h' : Heap}
    (hA : Apart base h) (heq : cloneFields clone out h fields = some h') : Apart base h' := by
  induction fields generalizing h with
  | nil => exact Option.some.inj heq ▸ hA
  | cons field rest ih =>
    obtain ⟨⟨w, h₁⟩, hvalue, hrest⟩ := Option.bind_eq_some_iff.mp heq
    obtain ⟨hbelow, hno⟩ := hfields field List.mem_cons_self
    obtain ⟨hA₁, hw⟩ := cloneValue_safe hclone hA hbelow hno hvalue
    exact ih (fun f hf => hfields f (List.mem_cons_of_mem field hf)) (hA₁.insert hout field.1 hw)
      hrest

theorem clones (hwf : base.WellFormed) (order : RangeOrder Bytes) (fuel : ℕ) :
    Clones base (clone order fuel) := by
  -- The depth of the nesting is the fuel; each level is the loop over one map's fields.
  induction fuel with
  | zero => exact fun _ _ _ _ _ _ _ heq => absurd heq (by simp [clone])
  | succ fuel ih =>
    intro h o c h' hA ho hno heq
    rw [clone] at heq
    split_ifs at heq
    · obtain ⟨rfl, rfl⟩ := Prod.mk.inj (Option.some.inj heq)
      exact ⟨hA.make, hA.next_le⟩
    · obtain ⟨h₁, hloop, hpair⟩ := Option.map_eq_some_iff.mp heq
      obtain ⟨rfl, rfl⟩ := Prod.mk.inj hpair
      refine ⟨cloneFields_apart ih hA.next_le (fun f hf => ?_) hA.make hloop, hA.next_le⟩
      have hl : (base.fields o).lookup f.1 = some f.2 := by
        rw [hA.toKept.fields ho] at hf
        exact (GoMap.mem_entries order _ f.1 f.2).mp hf
      have hocc := occurs_field hl
      exact ⟨hocc.stays_below hwf ho, fun b hb => hno b (hocc.listed hb)⟩

theorem Apart.reaches_old (hA : Apart base h) (hwf : base.WellFormed) (hv : Below base.next v)
    (hr : Reaches h v b) : Reaches base v b := by
  induction hr with
  | here a => exact .here a
  | item hmem _ ih =>
    cases hv with
    | list hitems => exact .item hmem (ih (hitems _ hmem))
  | @field a b key w hl _ ih =>
    cases hv with
    | object ha =>
      rw [hA.kept a (ha a rfl)] at hl
      exact .field hl (ih (hwf.below _ _ _ hl))

theorem Apart.reaches_new (hA : Apart base h) (hwf : base.WellFormed) (hv : Safe base v)
    (hr : Reaches h v b) : base.next ≤ b := by
  induction hr with
  | here a =>
    cases hv with
    | object hle => exact hle
  | @item items w b hmem hr _ =>
    cases hv with
    | list hbelow hno => exact absurd (hA.reaches_old hwf hbelow (.item hmem hr)) (hno b)
  | field hl _ ih =>
    cases hv with
    | object hle => exact ih (hA.safe _ hle _ _ hl)

end Cloning

/-! ### Clones are made -/

section Returns

variable {base : Heap} (order : RangeOrder Bytes)

/-- The nesting of the fields of a map is bounded: each map that a field holds has a smaller rank.
-/
def Ranked (base : Heap) (rank : Addr → ℕ) : Prop :=
  ∀ a key b, (base.maps a).lookup key = some (.object (some b)) → rank b < rank a

theorem cloneFields_returns {clone : Heap → Option Addr → Option (Addr × Heap)}
    (hout : base.next ≤ out) {fields : List (Bytes × Value)}
    (hfields : ∀ f ∈ fields, ∀ h, Kept base h → ∃ w h', cloneValue clone h f.2 = some (w, h') ∧
      Kept base h') (hK : Kept base h) :
    ∃ h', cloneFields clone out h fields = some h' ∧ Kept base h' := by
  induction fields generalizing h with
  | nil => exact ⟨h, rfl, hK⟩
  | cons field rest ih =>
    obtain ⟨w, h₁, hvalue, hK₁⟩ := hfields field List.mem_cons_self h hK
    obtain ⟨h', hrest, hK'⟩ := ih (fun f hf => hfields f (List.mem_cons_of_mem field hf))
      (hK₁.modify hout (·.insert field.1 w))
    exact ⟨h', Option.bind_eq_some_iff.mpr ⟨_, hvalue, hrest⟩, hK'⟩

/-- With enough stack for the nesting, every clone is made. -/
theorem clone_returns (hwf : base.WellFormed) {rank : Addr → ℕ} (hrank : Ranked base rank)
    {fuel : ℕ} (hpos : 0 < fuel) (hK : Kept base h) (ho : Below base.next (.object o))
    (hfuel : ∀ a ∈ o, rank a + 1 < fuel) :
    ∃ c h', clone order fuel h o = some (c, h') ∧ Kept base h' := by
  induction fuel generalizing h o with
  | zero => exact absurd hpos (Nat.lt_irrefl 0)
  | succ fuel ih =>
    rw [clone]
    split_ifs
    · exact ⟨_, _, rfl, hK.make⟩
    · have hfields : ∀ f ∈ (h.fields o).entries order, ∀ h, Kept base h →
          ∃ w h', cloneValue (clone order fuel) h f.2 = some (w, h') ∧ Kept base h' := by
        rintro ⟨key, v⟩ hf h₁ hK₁
        rw [hK.fields ho, GoMap.mem_entries] at hf
        cases v with
        | scalar s => exact ⟨_, h₁, rfl, hK₁⟩
        | list items => exact ⟨_, h₁, rfl, hK₁⟩
        | object ref =>
          cases o with
          | none => exact absurd hf (by simp [Heap.fields])
          | some a =>
            have ha : rank a + 1 < fuel + 1 := hfuel a rfl
            have hb : ∀ b ∈ ref, rank b + 1 < fuel := by
              rintro b ⟨⟩
              have hlt := hrank a key b hf
              omega
            obtain ⟨c, h', hc, hK'⟩ := ih (by omega) hK₁ (hwf.below a key _ hf) hb
            exact ⟨_, h', Option.map_eq_some_iff.mpr ⟨_, hc, rfl⟩, hK'⟩
      obtain ⟨h', hloop, hK'⟩ := cloneFields_returns hK.next_le hfields hK.make
      exact ⟨_, h', Option.map_eq_some_iff.mpr ⟨h', hloop, rfl⟩, hK'⟩

end Returns

/-! ### Writing to the copies -/

variable {a : Addr}

theorem maps_apply_of_ne {w : Write} (hne : a ≠ w.target) :
    (w.apply h).maps a = h.maps a := by
  cases w with
  | set _ _ _ => exact Function.update_of_ne hne _ _
  | delete _ _ => exact Function.update_of_ne hne _ _

theorem maps_foldl_of_ne {writes : List Write} (hne : ∀ w ∈ writes, a ≠ w.target) (h : Heap) :
    (writes.foldl Write.apply h).maps a = h.maps a := by
  induction writes generalizing h with
  | nil => rfl
  | cons w rest ih =>
    rw [List.foldl_cons, ih fun w' hw' => hne w' (List.mem_cons_of_mem w hw')]
    exact maps_apply_of_ne (hne w List.mem_cons_self)

/-- Without a map in a list, every copy is a clone of new maps or a list that reaches none. -/
theorem copied_apart {order : RangeOrder Bytes} {h h' : Heap} {copy : Value} (hwf : h.WellFormed)
    (ho : Below h.next (.object o)) (hno : ∀ b, ¬ Listed h (.object o) b)
    (hc : Copied order h o copy h') :
    Apart h h' ∧ Safe h copy := by
  have hclone : ∀ {v : Value} {fuel : ℕ} {c : Addr} {h' : Heap}, Occurs h (.object o) v →
      objectValue order fuel h v = some (c, h') → Apart h h' ∧ Safe h (.object (some c)) := by
    intro v fuel c h' hocc heq
    cases v with
    | scalar s => cases heq
    | list items => cases heq
    | object ref =>
      obtain ⟨hA, hle⟩ :=
        clones hwf order fuel h ref c h' (apart_refl hwf) (hocc.stays_below hwf ho)
        (fun b hb => hno b (hocc.listed hb)) heq
      exact ⟨hA, .object hle⟩
  have hlist : ∀ {v : Value} {items : List Value}, Occurs h (.object o) v →
      listValue v = some items →
      Apart h h ∧ Safe h (.list items) := by
    intro v items hocc heq
    cases v with
    | scalar s => cases heq
    | object ref => cases heq
    | list items' =>
      obtain rfl := Option.some.inj heq
      refine ⟨apart_refl hwf, .list (hocc.stays_below hwf ho) fun b hr => ?_⟩
      cases hr with
      | item hmem hr => exact hno b (hocc.listed (.item hmem hr))
  cases hc with
  | clone heq => exact hclone (.here _) heq
  | objectValue hocc heq => exact hclone hocc heq
  | listValue hocc heq => exact hlist hocc heq
  | getObject hocc heq =>
    obtain ⟨v, hl, heq⟩ := Option.bind_eq_some_iff.mp heq
    exact hclone (hocc.trans (occurs_field hl)) heq
  | getList hocc heq =>
    obtain ⟨v, hl, heq⟩ := Option.bind_eq_some_iff.mp heq
    exact hlist (hocc.trans (occurs_field hl)) heq

/-- A map reached through a list is reached from a list that occurs in the value. -/
theorem Listed.occurs (hl : Listed h v b) :
    ∃ items, Occurs h v (.list items) ∧ Reaches h (.list items) b := by
  induction hl with
  | item hmem hr => exact ⟨_, .here _, .item hmem hr⟩
  | field hf _ ih =>
    obtain ⟨items, hocc, hr⟩ := ih
    exact ⟨items, .field hf hocc, hr⟩

theorem exists_change (h : Heap) (a : Addr) :
    ∃ w : Write, w.target = a ∧ (w.apply h).maps a ≠ h.maps a := by
  by_cases hnull : (h.maps a).lookup [] = some (.scalar .null)
  · refine ⟨.delete a [], rfl, fun heq => ?_⟩
    change Function.update h.maps a ((h.maps a).erase []) a = _ at heq
    rw [Function.update_self] at heq
    have hl := congrArg (Finmap.lookup []) heq
    rw [GoMap.lookup_erase_if, if_pos rfl, hnull] at hl
    cases hl
  · refine ⟨.set a [] (.scalar .null), rfl, fun heq => hnull ?_⟩
    change Function.update h.maps a ((h.maps a).insert [] (.scalar .null)) a = _ at heq
    rw [Function.update_self] at heq
    rw [← heq, GoMap.lookup_insert_if, if_pos rfl]

/-- Copies are independent of an object exactly when none of its lists reaches a map. -/
theorem copies_independent_iff (order : RangeOrder Bytes) {h : Heap} (hwf : h.WellFormed)
    {o : Option Addr} (ho : Below h.next (.object o)) :
    Independent order h o ↔ ∀ b, ¬ Listed h (.object o) b := by
  constructor
  · intro hind b hl
    obtain ⟨items, hocc, hr⟩ := hl.occurs
    obtain ⟨w, rfl, hchange⟩ := exists_change h b
    refine hchange (hind _ _ (.listValue hocc rfl) [w] (fun w' hw' => ?_) _ hl.reaches)
    rw [List.mem_singleton.mp hw']
    exact hr
  · intro hno copy h' hc writes htargets a hr
    obtain ⟨hA, hsafe⟩ := copied_apart hwf ho hno hc
    have hlt : a < h.next := hr.lt hwf ho
    have hne : ∀ w ∈ writes, a ≠ w.target := fun w hw =>
      (hlt.trans_le (hA.reaches_new hwf hsafe (htargets w hw))).ne
    rw [maps_foldl_of_ne hne, hA.kept a hlt]

/-! ### A map in a list -/

def ascending : RangeOrder Bytes :=
  .ascendingBy (·.map UInt8.toNat) (List.map_injective_iff.mpr fun _ _ h => UInt8.toNat_inj.mp h)

def pair (first : Fields) : Heap where
  maps :=
    Function.update (Function.update (fun _ => ∅) 1 (Finmap.insert [0x78] (.scalar (.int 1)) ∅)) 0
    first
  next := 2

def listing : Heap := pair (Finmap.insert [0x61] (.list [.object (some 1)]) ∅)

/-- A write to a map reached from the clone changes a map of the original. -/
theorem listed_map_shared : ¬ Independent ascending listing (some 0) ∧
    ∃ h', clone ascending 1 listing (some 0) = some (2, h') ∧ Reaches h' (.object (some 2)) 1 ∧
      ((Write.delete 1 [0x78]).apply h').maps 1 ≠ listing.maps 1 := by
  have hold : (listing.maps 0).lookup [0x61] = some (.list [.object (some 1)]) := rfl
  have hreaches : Reaches listing (.object (some 0)) 1 :=
    .field hold (.item List.mem_cons_self (.here 1))
  obtain ⟨h', hclone, hcopied, hone⟩ : ∃ h', clone ascending 1 listing (some 0) = some (2, h') ∧
      (h'.maps 2).lookup [0x61] = some (.list [.object (some 1)]) ∧ h'.maps 1 = listing.maps 1 :=
        ⟨_, rfl, rfl, rfl⟩
  have hcopy : Reaches h' (.object (some 2)) 1 :=
    .field hcopied (.item List.mem_cons_self (.here 1))
  have hchange : ((Write.delete 1 [0x78]).apply h').maps 1 ≠ listing.maps 1 := by
    intro heq
    change Function.update h'.maps 1 ((h'.maps 1).erase [0x78]) 1 = _ at heq
    rw [Function.update_self, hone] at heq
    have hl := congrArg (Finmap.lookup [0x78]) heq
    rw [GoMap.lookup_erase_if, if_pos rfl] at hl
    cases hl
  refine ⟨fun hind => hchange ?_, h', hclone, hcopy, hchange⟩
  exact hind _ h' (.clone hclone) [.delete 1 [0x78]] (fun w hw => List.mem_singleton.mp hw ▸ hcopy)
    1 hreaches

def nesting : Heap :=
  pair (Finmap.insert [0x62] (.list [.scalar (.int 7)]) (Finmap.insert [0x61] (.object (some 1)) ∅))

theorem nesting_fields {key : Bytes} (hl : (nesting.maps a).lookup key = some v) :
    v = .scalar (.int 1) ∨ v = .object (some 1) ∨ v = .list [.scalar (.int 7)] := by
  simp only [nesting, pair, Function.update_apply] at hl
  split_ifs at hl with h0 h1
  · simp only [GoMap.lookup_insert_if, Finmap.lookup_empty] at hl
    split_ifs at hl
    · exact .inr (.inr (Option.some.inj hl).symm)
    · exact .inr (.inl (Option.some.inj hl).symm)
  · simp only [GoMap.lookup_insert_if, Finmap.lookup_empty] at hl
    split_ifs at hl
    exact .inl (Option.some.inj hl).symm
  · exact absurd hl (by simp)

theorem nesting_wellFormed : nesting.WellFormed := by
  refine ⟨fun a ha => ?_, fun a key v hl => ?_⟩
  · have h0 : a ≠ 0 := (Nat.lt_of_lt_of_le (by decide) ha).ne'
    have h1 : a ≠ 1 := (Nat.lt_of_lt_of_le (by decide) ha).ne'
    exact (Function.update_of_ne h0 _ _).trans (Function.update_of_ne h1 _ _)
  · rcases nesting_fields hl with rfl | rfl | rfl
    · exact .scalar _
    · exact .object fun a ha => Option.mem_some.mp ha ▸ Nat.one_lt_two
    · exact .list fun v hv => List.mem_singleton.mp hv ▸ .scalar _

theorem nesting_not_listed (hl : Listed nesting v b)
    (hv : v = .scalar (.int 1) ∨ (∃ ref, v = .object ref) ∨ v = .list [.scalar (.int 7)]) :
    False := by
  induction hl with
  | item hmem hr =>
    rcases hv with hv | ⟨ref, hv⟩ | hv
    · cases hv
    · cases hv
    · obtain rfl := Value.list.inj hv
      rw [List.mem_singleton.mp hmem] at hr
      cases hr
  | field hf _ ih => exact ih ((nesting_fields hf).imp_right (Or.imp_left fun hv => ⟨_, hv⟩))

theorem nesting_copies_independent : Independent ascending nesting (some 0) ∧
    ∃ c h', clone ascending 2 nesting (some 0) = some (c, h') := by
  have hbelow : Below nesting.next (.object (some 0)) :=
    .object fun a ha => Option.mem_some.mp ha ▸ Nat.two_pos
  refine ⟨(copies_independent_iff ascending nesting_wellFormed hbelow).mpr fun b hl => ?_,
    _, _, rfl⟩
  exact nesting_not_listed hl (.inr (.inl ⟨_, rfl⟩))

end Foundation.ExtensionHeap
