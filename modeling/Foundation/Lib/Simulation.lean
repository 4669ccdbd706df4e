import Mathlib.Data.List.Forall2
import Mathlib.Data.Option.Basic
import Foundation.Lib.Reached

/-! Two systems that take the same steps: related states stay related along every run, and a step is
possible for the one when it is for the other. States may be lists of parts that are related one by
one. -/

namespace Foundation

variable {A B A' B' E : Type*} {R : A → B → Prop} {R' : A' → B' → Prop}

theorem rel_imp {Q : A → B → Prop} {a : Option A} {b : Option B} (h : Option.Rel R a b)
    (hRQ : ∀ x y, R x y → Q x y) :
    Option.Rel Q a b := by
  cases h with
  | none => exact .none
  | some hxy => exact .some (hRQ _ _ hxy)

theorem rel_map {a : Option A} {b : Option B} {f : A → A'} {g : B → B'} (h : Option.Rel R a b)
    (hfg : ∀ x y, R x y → R' (f x) (g y)) : Option.Rel R' (a.map f) (b.map g) := by
  cases h with
  | none => exact .none
  | some hxy => exact .some (hfg _ _ hxy)

theorem rel_bind {a : Option A} {b : Option B} {f : A → Option A'} {g : B → Option B'}
    (h : Option.Rel R a b) (hfg : ∀ x y, R x y → Option.Rel R' (f x) (g y)) :
    Option.Rel R' (a.bind f) (b.bind g) := by
  cases h with
  | none => exact .none
  | some hxy => exact hfg _ _ hxy

theorem runSteps_rel {step : A → E → Option A} {step' : B → E → Option B}
    (hstep : ∀ a b e, R a b → Option.Rel R (step a e) (step' b e)) {a : A} {b : B} (h : R a b)
    (es : List E) :
    Option.Rel R (runSteps step a es) (runSteps step' b es) := by
  induction es generalizing a b with
  | nil => exact .some h
  | cons e rest ih => exact rel_bind (hstep a b e h) fun _ _ hxy => ih hxy

theorem rel_getElem? {as : List A} {bs : List B} (h : List.Forall₂ R as bs) (k : ℕ) :
    Option.Rel R as[k]? bs[k]? := by
  induction h generalizing k with
  | nil => exact .none
  | cons hab _ ih =>
    cases k with
    | zero => exact .some hab
    | succ k => exact ih k

theorem forall₂_set {as : List A} {bs : List B} (h : List.Forall₂ R as bs) (k : ℕ) {a : A} {b : B}
    (hab : R a b) :
    List.Forall₂ R (as.set k a) (bs.set k b) := by
  induction h generalizing k with
  | nil => exact .nil
  | cons hhead htail ih =>
    cases k with
    | zero => exact .cons hab htail
    | succ k => exact .cons hhead (ih k)

end Foundation
