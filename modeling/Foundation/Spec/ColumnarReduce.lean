import Mathlib.Algebra.Order.Ring.Rat
import Foundation.Spec.ColumnarBitmap

/-! Reductions over the present rows of a column: sums and extrema of int64 values
(`columnar_reduce.go`), and the moments of float values, in exact rationals (`columnar_moments.go`).
-/

namespace Foundation.Hermes

open PackedBits
open PackedBitmap (onesCount64)

def wordSpan (w n : ℕ) : ℕ × ℕ := (w * 64, min (w * 64 + 64) n)

/-- All ones or all zeros (`maskBit`). -/
def maskBit (word : Word) (bit : ℕ) : Word := -((word >>> bit) &&& 1)

/-- The loop over the validity words, from word `w` on: zero words are skipped, and the first word
past the rows ends it. The body gets the rows of its word. -/
def forWindows {V σ : Type} (values : List V) (body : σ → Word → List V → σ) : ℕ → σ → List Word → σ
  | _, acc, [] => acc
  | w, acc, word :: rest =>
    let span := wordSpan w values.length
    if word = 0 then forWindows values body (w + 1) acc rest
    else if span.2 ≤ span.1 then acc
    else forWindows values body (w + 1)
      (body acc word ((values.drop span.1).take (span.2 - span.1))) rest

structure Lanes (A : Type) where
  s0 : A
  s1 : A
  s2 : A
  s3 : A

def Lanes.total {A : Type} [Add A] (s : Lanes A) : A := (s.s0 + s.s1) + (s.s2 + s.s3)

/-- Four rows a round, then the rest into the first accumulator. `f` gets the number of the row in
its word. -/
def accumulate {V A : Type} [Add A] (f : ℕ → V → A) (b : ℕ) (s : Lanes A) : List V → Lanes A
  | v0 :: v1 :: v2 :: v3 :: rest =>
    accumulate f (b + 4) ⟨s.s0 + f b v0, s.s1 + f (b + 1) v1, s.s2 + f (b + 2) v2,
      s.s3 + f (b + 3) v3⟩ rest
  | rest => { s with s0 := (rest.zipIdx b).foldl (fun s0 v => s0 + f v.2 v.1) s.s0 }

/-! ### Int64 columns -/

def maskInt64 (word : Word) (b : ℕ) (v : Int64) : Int64 := v &&& Int64.ofBitVec (maskBit word b)

def sumWindow (acc : Lanes Int64 × ℕ) (word : Word) (rows : List Int64) : Lanes Int64 × ℕ :=
  -- A dense word needs no mask.
  if word = BitVec.allOnes 64 ∧ rows.length = 64 then
    (accumulate (fun _ v => v) 0 acc.1 rows, acc.2 + onesCount64 word)
  else (accumulate (maskInt64 word) 0 acc.1 rows, acc.2 + onesCount64 word)

def sumInt64Valid (values : List Int64) (validity : List Word) : Int64 × ℕ :=
  let acc := forWindows values sumWindow 0 (⟨0, 0, 0, 0⟩, 0) validity
  (acc.1.total, acc.2)

def int64IdentityForMin : Int64 := Int64.maxValue

def int64IdentityForMax : Int64 := Int64.minValue

/-- The row, or the identity in place of a null. -/
def fillInt64 (identity : Int64) (word : Word) (b : ℕ) (v : Int64) : Int64 :=
  (v &&& Int64.ofBitVec (maskBit word b)) ||| (identity &&& ~~~Int64.ofBitVec (maskBit word b))

def better (wantMin : Bool) (best v : Int64) : Int64 :=
  if wantMin then if v < best then v else best
  else if best < v then v else best

def extremumWindow (wantMin : Bool) (identity : Int64) (acc : Int64 × ℕ) (word : Word)
    (rows : List Int64) :
    Int64 × ℕ :=
  ((rows.zipIdx 0).foldl (fun best v => better wantMin best (fillInt64 identity word v.2 v.1))
    acc.1,
    acc.2 + onesCount64 word)

def extremumInt64Valid (values : List Int64) (validity : List Word) (wantMin : Bool) : Int64 × ℕ :=
  let identity := if wantMin then int64IdentityForMin else int64IdentityForMax
  forWindows values (extremumWindow wantMin identity) 0 (identity, 0) validity

/-! ### Moments -/

@[ext] structure Moments where
  count : ℕ
  mean : ℚ
  m2 : ℚ
deriving DecidableEq

def mergeMoments (a b : Moments) : Moments :=
  if a.count = 0 then b
  else if b.count = 0 then a
  else
    let total := (a.count : ℚ) + b.count
    let delta := b.mean - a.mean
    { count := a.count + b.count
      mean := a.mean + delta * (b.count / total)
      m2 := a.m2 + b.m2 + delta * delta * (a.count * b.count / total) }

/-- The bits of a float under the mask: the float, or zero. -/
def maskFloat64 (word : Word) (b : ℕ) (v : ℚ) : ℚ := if maskBit word b = 0 then 0 else v

def momentsWindow (acc : Moments) (word : Word) (rows : List ℚ) : Moments :=
  let count : ℕ :=
    (List.range rows.length).foldl (fun count b => count + ((word >>> b) &&& 1).toNat) 0
  if count = 0 then acc
  else
    let mean := (accumulate (maskFloat64 word) 0 ⟨0, 0, 0, 0⟩ rows).total / count
    let m2 :=
      (accumulate (fun b v => maskFloat64 word b (v - mean) * maskFloat64 word b (v - mean)) 0
      ⟨0, 0, 0, 0⟩ rows).total
    mergeMoments acc ⟨count, mean, m2⟩

def momentsFloat64Valid (values : List ℚ) (validity : List Word) : Moments :=
  forWindows values momentsWindow 0 ⟨0, 0, 0⟩ validity

/-- The rows of a column whose validity bit is set. -/
def presentRows {V : Type} (values : List V) (validity : List Word) : List V :=
  (values.zipIdx.filter fun v => bitAt validity v.2).map Prod.fst

/-- Length, mean and sum of squared deviations of a list. -/
def moments (l : List ℚ) : Moments :=
  ⟨l.length, l.sum / l.length, (l.map fun x => (x - l.sum / l.length) ^ 2).sum⟩

end Foundation.Hermes
