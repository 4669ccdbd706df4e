import Foundation.Lib.BitScan
import Foundation.Lib.PackedMasks

/-! The packed bit vector of the columnar engine with its word kernels and the capacity it reserves
(`columnar_bitmap.go`, `columnar_mlp.go`, `bitmap_dispatch.go`), and the finite sets of rows it
stands for. -/

namespace Foundation.Hermes.PackedBitmap

open PackedBits

/-! ### Word kernels -/

inductive BitmapOp where
  | and | or | andNot
deriving DecidableEq, Repr

def BitmapOp.apply : BitmapOp → Word → Word → Word
  | .and => fun a b => a &&& b
  | .or => fun a b => a ||| b
  | .andNot => fun a b => a &&& ~~~b

def onesCount64 (w : Word) : ℕ := (wordBits w).length

/-- Four words a round, then the rest one by one. -/
def countLoop (c0 c1 c2 c3 : ℕ) : List Word → ℕ
  | a :: b :: c :: d :: rest =>
    countLoop (c0 + onesCount64 a) (c1 + onesCount64 b) (c2 + onesCount64 c)
      (c3 + onesCount64 d) rest
  | rest => rest.foldl (fun total w => total + onesCount64 w) ((c0 + c1) + (c2 + c3))

def binaryLoop (op : Word → Word → Word) : List Word → List Word → List Word
  | a :: b :: c :: d :: dst, a' :: b' :: c' :: d' :: src =>
    op a a' :: op b b' :: op c c' :: op d d' :: binaryLoop op dst src
  | dst, src => List.zipWith op dst src

def notWords : List Word → List Word
  | a :: b :: c :: d :: dst => ~~~a :: ~~~b :: ~~~c :: ~~~d :: notWords dst
  | dst => dst.map (~~~·)

/-- The installed hooks. What one of them takes over is bit-identical to the scalar kernel. -/
structure Hooks where
  count : List Word → Option ℕ
  binary : BitmapOp → List Word → List Word → Option (List Word)
  count_exact : ∀ words c, count words = some c → c = countLoop 0 0 0 0 words
  binary_exact : ∀ op dst src out, binary op dst src = some out → out = binaryLoop op.apply dst src

def Hooks.none : Hooks where
  count _ := .none
  binary _ _ _ := .none
  count_exact _ _ h := by cases h
  binary_exact _ _ _ _ h := by cases h

variable (hooks : Hooks)

def popcountWords (words : List Word) : ℕ := (hooks.count words).getD (countLoop 0 0 0 0 words)

/-- `src` is cut to the length of `dst`, which can reach into its reserved words, and panics past
them. -/
def binaryWords (op : BitmapOp) (dst src reserved : List Word) : Option (List Word) :=
  if dst.length ≤ src.length + reserved.length then
    let src := (src ++ reserved).take dst.length
    some ((hooks.binary op dst src).getD (binaryLoop op.apply dst src))
  else none

def andWords := binaryWords hooks .and

def orWords := binaryWords hooks .or

def andNotWords := binaryWords hooks .andNot

end PackedBitmap

open PackedBits

/-- `reserved` is what the array holds behind the words in use. -/
structure PackedBitmap where
  words : List Word
  reserved : List Word
  n : ℕ
deriving DecidableEq

namespace PackedBitmap

def newBitmap (n : ℤ) : PackedBitmap := ⟨List.replicate (wordCount n.toNat) 0, [], n.toNat⟩

def grow (b : PackedBitmap) (newN : ℤ) : PackedBitmap :=
  if newN ≤ b.n then b
  else
    let reqWords := wordCount newN.toNat
    if b.words.length < reqWords then
      if reqWords ≤ b.words.length + b.reserved.length then
        let words := (b.words ++ b.reserved).take reqWords
        { words := words.take b.words.length ++ List.replicate (reqWords - b.words.length) 0
          reserved := (b.words ++ b.reserved).drop reqWords
          n := newN.toNat }
      else
        { words := b.words ++ List.replicate (reqWords - b.words.length) 0
          reserved := List.replicate reqWords 0
          n := newN.toNat }
    else { b with n := newN.toNat }

def set (b : PackedBitmap) (i : ℤ) : PackedBitmap :=
  if i < 0 then b
  else
    let b := if (b.n : ℤ) ≤ i then b.grow (i + 1) else b
    { b with words := setBit b.words i.toNat }

def clear (b : PackedBitmap) (i : ℤ) : PackedBitmap :=
  if i < 0 ∨ (b.n : ℤ) ≤ i ∨ b.words.length ≤ i.toNat / 64 then b
  else { b with words := clearBit b.words i.toNat }

def clone (b : PackedBitmap) : PackedBitmap := { b with reserved := [] }

def get (b : PackedBitmap) (i : ℤ) : Bool :=
  if i < 0 ∨ (b.n : ℤ) ≤ i then false else bitAt b.words i.toNat

def count (hooks : Hooks) (b : PackedBitmap) : ℕ := popcountWords hooks b.words

def tailMask (b : PackedBitmap) : PackedBitmap :=
  if b.n = 0 ∨ b.words = [] then b
  else if b.n % 64 ≠ 0 then
    { b with words := b.words.modify (b.words.length - 1) (· &&& ((1 : Word) <<< (b.n % 64) - 1)) }
  else b

inductive Fault where
  | differentRows (n other : ℕ)
  | panic
deriving DecidableEq, Repr

def combine (hooks : Hooks) (op : BitmapOp) (b other : PackedBitmap) : Except Fault PackedBitmap :=
  if b.n ≠ other.n then .error (.differentRows b.n other.n)
  else
    match binaryWords hooks op b.words other.words other.reserved with
    | none => .error .panic
    | some words => .ok { b with words }

def and (hooks : Hooks) := combine hooks .and

def or (hooks : Hooks) := combine hooks .or

def andNot (hooks : Hooks) := combine hooks .andNot

def not (b : PackedBitmap) : PackedBitmap := tailMask { b with words := notWords b.words }

def andClamped (hooks : Hooks) (b : PackedBitmap) (words : Option (List Word)) :
    Option PackedBitmap :=
  match words with
  | none => some b
  | some words =>
    let n := min words.length b.words.length
    (andWords hooks (b.words.take n) (words.take n) (words.drop n)).map fun bulk =>
      { b with words := bulk ++ List.replicate (b.words.length - n) 0 }

/-- The visited bits of one word, and whether to go on. -/
def visitBits (fn : ℕ → Bool) (base : ℕ) (w : Word) : List ℕ × Bool :=
  if w = 0 then ([], true)
  else if fn (base + lowestBit w) then
    let visited := visitBits fn base (dropLowest w)
    ((base + lowestBit w) :: visited.1, visited.2)
  else ([base + lowestBit w], false)
termination_by w.toNat
decreasing_by exact toNat_dropLowest_lt (by assumption)

def visitWords (fn : ℕ → Bool) (base : ℕ) : List Word → List ℕ
  | [] => []
  | w :: rest =>
    let visited := visitBits fn base w
    if visited.2 then visited.1 ++ visitWords fn (base + 64) rest else visited.1

/-- The bits that `forEachSet` visits, until `fn` returns false. -/
def forEachSet (b : PackedBitmap) (fn : ℕ → Bool) : List ℕ := visitWords fn 0 b.words

/-! ### Programs -/

/-- An operation on the bitmaps made so far; `clone` and `newBitmap` make another one. -/
inductive Op where
  | newBitmap (n : ℤ)
  | clone (k : ℕ)
  | set (k : ℕ) (i : ℤ)
  | clear (k : ℕ) (i : ℤ)
  | grow (k : ℕ) (newN : ℤ)
  | not (k : ℕ)
  | combine (op : BitmapOp) (k other : ℕ)
  | andClamped (k : ℕ) (words : Option (List Word))

/-- An error leaves the receiver as it is, a panic ends the run. -/
def step (hooks : Hooks) (bs : List PackedBitmap) : Op → Option (List PackedBitmap)
  | .newBitmap n => some (bs ++ [.newBitmap n])
  | .clone k => bs[k]?.map fun b => bs ++ [b.clone]
  | .set k i => bs[k]?.map fun b => bs.set k (b.set i)
  | .clear k i => bs[k]?.map fun b => bs.set k (b.clear i)
  | .grow k newN => bs[k]?.map fun b => bs.set k (b.grow newN)
  | .not k => bs[k]?.map fun b => bs.set k b.not
  | .combine op k other =>
    bs[k]?.bind fun b => bs[other]?.bind fun o =>
      match b.combine hooks op o with
      | .ok b => some (bs.set k b)
      | .error (.differentRows _ _) => some (bs.set k b)
      | .error .panic => none
  | .andClamped k words => bs[k]?.bind fun b => (b.andClamped hooks words).map (bs.set k ·)

end PackedBitmap

/-! ### Sets of rows -/

/-- A set of rows out of `n`. -/
structure RowSet where
  n : ℕ
  members : Finset ℕ
  below : ∀ i ∈ members, i < n

namespace RowSet

open PackedBitmap (BitmapOp Op)

variable (S T : RowSet)

def grow (newN : ℤ) : RowSet :=
  ⟨max S.n newN.toNat, S.members, fun i hi => lt_max_of_lt_left (S.below i hi)⟩

def insert (i : ℤ) : RowSet :=
  if i < 0 then S
  else ⟨max S.n (i.toNat + 1), Insert.insert i.toNat S.members, fun j hj => by
    rcases Finset.mem_insert.mp hj with rfl | hj
    · exact lt_max_of_lt_right (Nat.lt_succ_self _)
    · exact lt_max_of_lt_left (S.below j hj)⟩

def keep (p : ℕ → Bool) : RowSet :=
  ⟨S.n, S.members.filter fun i => p i, fun i hi => S.below i (Finset.mem_of_mem_filter i hi)⟩

def erase (i : ℤ) : RowSet := S.keep fun j => decide ((j : ℤ) ≠ i)

def compl : RowSet :=
  ⟨S.n, Finset.range S.n \ S.members, fun _ hi => Finset.mem_range.mp (Finset.mem_sdiff.mp hi).1⟩

/-- Sets over different numbers of rows are not combined. -/
def combine (op : BitmapOp) : RowSet :=
  if h : S.n = T.n then
    match op with
    | .and => ⟨S.n, S.members ∩ T.members, fun i hi => S.below i (Finset.mem_inter.mp hi).1⟩
    | .or =>
      ⟨S.n, S.members ∪ T.members, fun i hi => (Finset.mem_union.mp hi).elim (S.below i) fun hi =>
        h ▸ T.below i hi⟩
    | .andNot => ⟨S.n, S.members \ T.members, fun i hi => S.below i (Finset.mem_sdiff.mp hi).1⟩
  else S

def step (Ss : List RowSet) : Op → Option (List RowSet)
  | .newBitmap n => some (Ss ++ [⟨n.toNat, ∅, fun _ hi => absurd hi (Finset.notMem_empty _)⟩])
  | .clone k => Ss[k]?.map fun S => Ss ++ [S]
  | .set k i => Ss[k]?.map fun S => Ss.set k (S.insert i)
  | .clear k i => Ss[k]?.map fun S => Ss.set k (S.erase i)
  | .grow k newN => Ss[k]?.map fun S => Ss.set k (S.grow newN)
  | .not k => Ss[k]?.map fun S => Ss.set k S.compl
  | .combine op k other => Ss[k]?.bind fun S => Ss[other]?.map fun T => Ss.set k (S.combine T op)
  | .andClamped k words =>
    Ss[k]?.map fun S => Ss.set k (S.keep fun i => (words.map (bitAt · i)).getD true)

end RowSet

end Foundation.Hermes
