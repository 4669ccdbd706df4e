import Mathlib.Tactic

/-! A binary heap of bounded size with the worst retained element at its root, kept in a
list the way an array heap is: the children of position `i` are `2 * i + 1` and
`2 * i + 2`. Adding to a full heap replaces the root or drops the new element. -/

namespace Foundation.BoundedHeap

variable {α : Type} (cmp : α → α → Ordering)

def swap (l : List α) (i j : ℕ) : List α :=
  match l[i]?, l[j]? with
  | some a, some b => (l.set i b).set j a
  | _, _ => l

def siftUp : ℕ → List α → ℕ → List α
  | 0, l, _ => l
  | fuel + 1, l, child =>
    if child = 0 then l
    else match l[child]?, l[(child - 1) / 2]? with
      | some c, some p =>
        if cmp c p = .gt then siftUp fuel (swap l ((child - 1) / 2) child) ((child - 1) / 2) else l
      | _, _ => l

/-- The child of `parent` that compares greater, the left one on a tie. -/
def greaterChild (l : List α) (parent : ℕ) : ℕ :=
  match l[2 * parent + 2]?, l[2 * parent + 1]? with
  | some right, some left => if cmp right left = .gt then 2 * parent + 2 else 2 * parent + 1
  | _, _ => 2 * parent + 1

def siftDown : ℕ → List α → ℕ → List α
  | 0, l, _ => l
  | fuel + 1, l, parent =>
    if parent < l.length / 2 then
      let child := greaterChild cmp l parent
      match l[parent]?, l[child]? with
      | some p, some c => if cmp p c = .lt then siftDown fuel (swap l parent child) child else l
      | _, _ => l
    else l

/-- Adds one element; a limit of zero or less is no limit. -/
def add (limit : ℤ) (l : List α) (x : α) : List α :=
  if limit ≤ 0 then l ++ [x]
  else if l.length < limit then siftUp cmp (l.length + 1) (l ++ [x]) l.length
  else match l with
    | [] => []
    | root :: rest =>
      if cmp x root = .lt then siftDown cmp (rest.length + 1) (x :: rest) 0 else root :: rest

end Foundation.BoundedHeap
