import Mathlib.Data.List.Nodup
import Mathlib.Order.WithBot
import Mathlib.Data.Rat.Defs
import Mathlib.Algebra.Order.Ring.Rat

/-! Maps and numbers as a JavaScript program sees them: a `Map` keeps its keys in the
order in which they were first set, and every comparison with `NaN` is false. -/

namespace Foundation

/-- A `Map`, or the own properties of an object, in insertion order. -/
structure JsMap (K V : Type) where
  entries : List (K × V)
  nodup : (entries.map Prod.fst).Nodup

namespace JsMap

variable {K V : Type} [DecidableEq K]

def empty : JsMap K V := ⟨[], List.nodup_nil⟩

def get (m : JsMap K V) (k : K) : Option V := (m.entries.find? (·.1 = k)).map Prod.snd

def has (m : JsMap K V) (k : K) : Bool := (m.get k).isSome

/-- A key that is held keeps its place, a new one goes last. -/
def set (m : JsMap K V) (k : K) (v : V) : JsMap K V :=
  if h : ∃ e ∈ m.entries, e.1 = k then
    ⟨m.entries.map fun e => if e.1 = k then (e.1, v) else e, by
      rw [List.map_map,
        List.map_congr_left (g := Prod.fst) fun e
        _ => by dsimp only [Function.comp]; split_ifs <;> rfl]
      exact m.nodup⟩
  else
    ⟨m.entries ++ [(k, v)], by
      rw [List.map_append, List.nodup_append]
      refine ⟨m.nodup, by simp, fun a ha b hb hab => h ?_⟩
      obtain ⟨e, he, rfl⟩ := List.mem_map.mp ha
      exact ⟨e, he, by rw [hab, List.mem_singleton.mp hb]⟩⟩

def delete (m : JsMap K V) (k : K) : JsMap K V :=
  ⟨m.entries.filter (·.1 ≠ k), m.nodup.sublist (List.filter_sublist.map _)⟩

/-- The spread `{...m, ...n}`. -/
def assign (m n : JsMap K V) : JsMap K V := n.entries.foldl (fun acc e => acc.set e.1 e.2) m

theorem get_eq_some_iff (m : JsMap K V) (k : K) (v : V) :
    m.get k = some v ↔ (k, v) ∈ m.entries := by
  have key : ∀ l : List (K × V), (l.map Prod.fst).Nodup →
      ((l.find? (·.1 = k)).map Prod.snd = some v ↔ (k, v) ∈ l) := by
    intro l
    induction l with
    | nil => simp
    | cons e l ih =>
      intro hn
      rw [List.map_cons, List.nodup_cons] at hn
      rw [List.find?_cons]
      by_cases he : e.1 = k
      · have hnot : (k, v) ∉ l := fun h => hn.1 (he ▸ List.mem_map_of_mem (f := Prod.fst) h)
        simp only [he, decide_true, Option.map_some, Option.some.injEq, List.mem_cons,
          hnot, or_false]
        exact ⟨fun h => by rw [← h, ← he], fun h => by rw [← h]⟩
      · have hne : (k, v) ≠ e := fun h => he (by rw [← h])
        simp only [he, decide_false, List.mem_cons, hne, false_or]
        exact ih hn.2
  exact key m.entries m.nodup

theorem get_set (m : JsMap K V) (a b : K) (v : V) :
    (m.set a v).get b = if b = a then some v else m.get b := by
  ext w
  rw [get_eq_some_iff, set]
  split_ifs with hheld hb hb
  · subst hb
    obtain ⟨e, he, hk⟩ := hheld
    simp only [List.mem_map, Option.some.injEq]
    constructor
    · rintro ⟨x, hx, hxw⟩
      split_ifs at hxw with hxb
      · exact (Prod.mk.inj hxw).2
      · exact absurd (by rw [hxw]) hxb
    · rintro rfl
      exact ⟨e, he, by rw [if_pos hk, hk]⟩
  · simp only [List.mem_map, get_eq_some_iff]
    constructor
    · rintro ⟨x, hx, hxw⟩
      split_ifs at hxw with hxa
      · exact absurd ((Prod.mk.inj hxw).1.symm.trans hxa) hb
      · rwa [← hxw]
    · intro h
      exact ⟨_, h, if_neg hb⟩
  · subst hb
    have hnew : (b, w) ∉ m.entries := fun h => hheld ⟨_, h, rfl⟩
    simp [hnew, eq_comm]
  · simp [hb, get_eq_some_iff]

theorem get_delete (m : JsMap K V) (a b : K) :
    (m.delete a).get b = if b = a then none else m.get b := by
  ext w
  rw [get_eq_some_iff, delete]
  split_ifs with hb <;> simp [hb, get_eq_some_iff]

end JsMap

/-- A `number`, up to rounding: `NaN`, an infinity or a rational. -/
inductive JsNumber where
  | nan
  | real (x : WithBot (WithTop ℚ))
  deriving DecidableEq

namespace JsNumber

def ofInt (i : ℤ) : JsNumber := .real (((i : ℚ) : WithTop ℚ) : WithBot (WithTop ℚ))

def lt : JsNumber → JsNumber → Bool
  | .real x, .real y => x < y
  | _, _ => false

def le : JsNumber → JsNumber → Bool
  | .real x, .real y => x ≤ y
  | _, _ => false

def max : JsNumber → JsNumber → JsNumber
  | .real x, .real y => .real (x ⊔ y)
  | _, _ => .nan

theorem le_ne_nan {v w : JsNumber} (h : v.le w = true) : v ≠ .nan ∧ w ≠ .nan := by
  cases v <;> cases w <;> simp_all [le]

theorem le_refl {v : JsNumber} (h : v ≠ .nan) : v.le v = true := by
  cases v with
  | nan => exact absurd rfl h
  | real x => simp [le]

theorem le_trans {u v w : JsNumber} (h : u.le v = true) (h' : v.le w = true) : u.le w = true := by
  cases u <;> cases v <;> cases w <;> simp_all [le]
  exact h.trans h'

theorem le_antisymm {v w : JsNumber} (h : v.le w = true) (h' : w.le v = true) : v = w := by
  cases v <;> cases w <;> simp_all [le]
  exact h.antisymm h'

theorem le_of_not_lt {v w : JsNumber} (hv : v ≠ .nan) (hw : w ≠ .nan) (h : v.lt w = false) :
    w.le v = true := by
  cases v <;> cases w <;> simp_all [lt, le]

theorem le_of_lt {v w : JsNumber} (h : v.lt w = true) : v.le w = true := by
  cases v <;> cases w <;> simp_all [lt, le]
  exact h.le

theorem not_le_of_lt {v w : JsNumber} (h : v.lt w = true) : w.le v = false := by
  cases v <;> cases w <;> simp_all [lt, le]

end JsNumber

end Foundation
