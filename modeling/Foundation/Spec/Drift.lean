import Foundation.Lib.Strconv
import Foundation.Spec.Gateway

/-! From the drift check of `hermes/drift.go`: the Merkle tree over the hashes of the records, with
the siblings that witness a leaf. -/

namespace Foundation

namespace Hermes

open Go Projectiongw Strconv

/-- `crypto/sha256`, whose sums are read as bytes by `digest`. -/
structure DriftStd (D : Type) where
  sum256 : Bytes → D
  digest : D → Bytes

def utf8 (s : String) : Bytes := Utf8.encode s.toList

section sets
variable {D : Type} [DecidableEq D] (std : DriftStd D)

def hexEncodeToString (b : Bytes) : Bytes :=
  b.flatMap fun c => [lowerhex (c.toNat / 16), lowerhex (c.toNat % 16)]

def merkleParent (left right : D) : D :=
  std.sum256 (utf8 "node" ++ std.digest left ++ std.digest right)

def merkleNextLevel : List D → List D
  | [] => []
  | [left] => [merkleParent std left left]
  | left :: right :: rest => merkleParent std left right :: merkleNextLevel rest

/-- The levels above a level, which is at least halved each time. -/
def merkleLevels : ℕ → List D → List (List D)
  | 0, level => [level]
  | fuel + 1, level =>
    if 1 < level.length then level :: merkleLevels fuel (merkleNextLevel std level) else [level]

structure DriftLeaf (D : Type) where
  recordID : String
  hash : D

def newMerkleTree (leaves : List (DriftLeaf D)) : List (List D) :=
  if leaves = [] then [] else merkleLevels std leaves.length (leaves.map (·.hash))

def merkleRoot (levels : List (List D)) : Bytes :=
  match levels.getLast?.bind List.head? with
  | none => hexEncodeToString (std.digest (std.sum256 (utf8 "hermes-drift-empty")))
  | some top => hexEncodeToString (std.digest top)

inductive Side where
  | left
  | right
deriving DecidableEq

structure MerkleSibling where
  side : Side
  hash : Bytes
deriving DecidableEq

/-- A last node without a neighbour is its own sibling. -/
def siblingIndex (n index : ℕ) : ℕ := if n ≤ index ^^^ 1 then index else index ^^^ 1

/-- The siblings of a node and of those above it, up to the first level of one node. A read past a
level is a panic. -/
def merkleProof : List (List D) → ℕ → Option (List MerkleSibling)
  | [], _ => some []
  | level :: above, index =>
    if level.length ≤ 1 then some []
    else
      let side := if siblingIndex level.length index < index then Side.left else .right
      do
        let sibling ← level[siblingIndex level.length index]?
        let siblings ← merkleProof above (index / 2)
        return ⟨side, hexEncodeToString (std.digest sibling)⟩ :: siblings

end sets

end Hermes

end Foundation
