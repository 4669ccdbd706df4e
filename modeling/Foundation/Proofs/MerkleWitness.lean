import Foundation.Spec.Drift
import Mathlib.Data.Nat.Bitwise

/-! The siblings of a leaf lead to the root. One level up, a node and its sibling have the node at
half the index as their parent; the climb repeats this up to the level of one node. -/

namespace Foundation.Hermes

open Go Strconv

variable {D : Type} (std : DriftStd D)

/-! ### A checker of witnesses -/

def hexDecodeString : Bytes → Option Bytes
  | [] => some []
  | [_] => none
  | a :: b :: rest => do
    let high ← Json.hexDigit? a
    let low ← Json.hexDigit? b
    let bytes ← hexDecodeString rest
    return UInt8.ofNat (high * 16 + low) :: bytes

def foldSiblings : Bytes → List MerkleSibling → Option Bytes
  | acc, [] => some (hexEncodeToString acc)
  | acc, s :: siblings => do
    let sibling ← hexDecodeString s.hash
    match s.side with
    | .left => foldSiblings (std.digest (std.sum256 (utf8 "node" ++ sibling ++ acc))) siblings
    | .right => foldSiblings (std.digest (std.sum256 (utf8 "node" ++ acc ++ sibling))) siblings

/-- The root that a reported leaf hash and its siblings lead to. -/
def rootOfWitness (leafHash : Bytes) (siblings : List MerkleSibling) : Option Bytes := do
  foldSiblings std (← hexDecodeString leafHash) siblings

theorem hexDecodeString_encode (b : Bytes) : hexDecodeString (hexEncodeToString b) = some b := by
  induction b with
  | nil => rfl
  | cons c rest ih =>
    have hc := c.toNat_lt
    have hhigh := lowerhex_spec (show c.toNat / 16 < 16 by omega)
    have hlow := lowerhex_spec (Nat.mod_lt c.toNat (show 16 > 0 by norm_num))
    have hjoin : c.toNat / 16 * 16 + c.toNat % 16 = c.toNat := Nat.div_add_mod' _ _
    show hexDecodeString (lowerhex (c.toNat / 16) :: lowerhex (c.toNat % 16) ::
        hexEncodeToString rest) = _
    rw [hexDecodeString, hhigh, hlow, ih]
    show some (UInt8.ofNat (c.toNat / 16 * 16 + c.toNat % 16) :: rest) = _
    rw [hjoin, UInt8.ofNat_toNat]

/-! ### One level -/

theorem length_merkleNextLevel (level : List D) :
    (merkleNextLevel std level).length = (level.length + 1) / 2 := by
  induction level using merkleNextLevel.induct with
  | case1 => simp [merkleNextLevel]
  | case2 left => simp [merkleNextLevel]
  | case3 left right rest ih =>
    rw [merkleNextLevel, List.length_cons, ih, List.length_cons, List.length_cons]
    omega

theorem xor_one_add_two (i : ℕ) : (i + 2) ^^^ 1 = (i ^^^ 1) + 2 := by
  rcases Nat.even_or_odd i with h | h
  · rw [Nat.xor_one_of_even h, Nat.xor_one_of_even (h.add even_two)]
  · have hpos : 0 < i := h.pos
    rw [Nat.xor_one_of_odd h, Nat.xor_one_of_odd (h.add_even even_two)]
    omega

theorem siblingIndex_add_two (n i : ℕ) : siblingIndex (n + 2) (i + 2) = siblingIndex n i + 2 := by
  unfold siblingIndex
  rw [xor_one_add_two]
  split_ifs <;> omega

variable {level : List D} {i : ℕ} {x : D}

/-- A node has a sibling, perhaps itself, and their parent is at half its index. -/
theorem parent_merkleNextLevel (hi : level[i]? = some x) :
    ∃ y, level[siblingIndex level.length i]? = some y ∧ (merkleNextLevel std level)[i / 2]? =
      some (if siblingIndex level.length i < i then merkleParent std y x
        else merkleParent std x y) := by
  induction level using merkleNextLevel.induct generalizing i with
  | case1 => simp at hi
  | case2 left =>
    obtain rfl : i = 0 := by
      have := (List.getElem?_eq_some_iff.mp hi).1
      simpa using this
    obtain rfl : left = x := by simpa using hi
    exact ⟨left, rfl, rfl⟩
  | case3 left right rest ih =>
    rcases i with _ | _ | i
    · obtain rfl : left = x := by simpa using hi
      exact ⟨right, by simp [siblingIndex], by simp [siblingIndex, merkleNextLevel]⟩
    · obtain rfl : right = x := by simpa using hi
      exact ⟨left, by simp [siblingIndex], by simp [siblingIndex, merkleNextLevel]⟩
    · obtain ⟨y, hy, hparent⟩ := ih (by simpa using hi)
      refine ⟨y, ?_, ?_⟩
      · rw [List.length_cons, List.length_cons, siblingIndex_add_two]
        exact hy
      · rw [List.length_cons, List.length_cons, siblingIndex_add_two, merkleNextLevel,
          show (i + 2) / 2 = i / 2 + 1 by omega, List.getElem?_cons_succ, hparent]
        simp only [Nat.add_lt_add_iff_right]

/-! ### The climb -/

theorem foldSiblings_cons (x y : D) (before : Prop) [Decidable before]
    (siblings : List MerkleSibling) :
    foldSiblings std (std.digest x)
      (⟨if before then .left else .right, hexEncodeToString (std.digest y)⟩ :: siblings) =
    foldSiblings std (std.digest (if before then merkleParent std y x else merkleParent std x y))
      siblings := by
  rw [foldSiblings, hexDecodeString_encode]
  split_ifs <;> rfl

theorem merkleLevels_ne_nil (fuel : ℕ) (level : List D) : merkleLevels std fuel level ≠ [] := by
  cases fuel with
  | zero => exact List.cons_ne_nil _ _
  | succ fuel =>
    unfold merkleLevels
    split_ifs <;> exact List.cons_ne_nil _ _

theorem climb_single (fuel : ℕ) (hone : level.length ≤ 1) (hi : level[i]? = some x) :
    (merkleLevels std fuel level).getLast?.bind List.head? = some x ∧
      merkleProof std (merkleLevels std fuel level) i = some [] := by
  have hlt := (List.getElem?_eq_some_iff.mp hi).1
  obtain ⟨y, rfl⟩ := List.length_eq_one_iff.mp (show level.length = 1 by omega)
  obtain rfl : i = 0 := by simpa using hlt
  obtain rfl : y = x := by simpa using hi
  cases fuel with
  | zero => exact ⟨rfl, rfl⟩
  | succ fuel => exact ⟨rfl, rfl⟩

/-- From every node of a level the siblings lead to the single node of the last level. -/
theorem climb (fuel : ℕ) (hfuel : level.length ≤ fuel + 1) (hi : level[i]? = some x) :
    ∃ top siblings, (merkleLevels std fuel level).getLast?.bind List.head? = some top ∧
      merkleProof std (merkleLevels std fuel level) i = some siblings ∧
      foldSiblings std (std.digest x) siblings = some (hexEncodeToString (std.digest top)) := by
  -- The fuel bounds the length, and a level of two nodes or more is longer than the one above it.
  induction fuel generalizing level i x with
  | zero =>
    obtain ⟨htop, hproof⟩ := climb_single std 0 hfuel hi
    exact ⟨x, [], htop, hproof, rfl⟩
  | succ fuel ih =>
    by_cases hone : level.length ≤ 1
    · obtain ⟨htop, hproof⟩ := climb_single std (fuel + 1) hone hi
      exact ⟨x, [], htop, hproof, rfl⟩
    · obtain ⟨y, hy, hparent⟩ := parent_merkleNextLevel std hi
      have hlen := length_merkleNextLevel std level
      obtain ⟨top, siblings, htop, hproof, hfold⟩ := ih (by omega) hparent
      have hlevels : merkleLevels std (fuel + 1) level = level ::
          merkleLevels std fuel (merkleNextLevel std level) :=
        if_pos (by omega)
      refine ⟨top, ⟨if siblingIndex level.length i < i then .left else .right,
        hexEncodeToString (std.digest y)⟩ ::
        siblings, ?_, ?_, ?_⟩
      · rw [hlevels, List.getLast?_cons_of_ne_nil (merkleLevels_ne_nil std _ _), htop]
      · rw [hlevels, merkleProof, if_neg hone]
        dsimp only
        rw [hy, hproof]
        rfl
      · rw [foldSiblings_cons, hfold]

/-- The witness of every leaf verifies. -/
theorem proof_leads_to_root (leaves : List (DriftLeaf D)) (i : Fin leaves.length) :
    ∃ siblings, merkleProof std (newMerkleTree std leaves) i = some siblings ∧
      rootOfWitness std (hexEncodeToString (std.digest leaves[i].hash)) siblings =
        some (merkleRoot std (newMerkleTree std leaves)) := by
  have hne : leaves ≠ [] := List.ne_nil_of_length_pos i.pos
  have hleaf : (leaves.map (·.hash))[i.1]? = some leaves[i].hash := by
    rw [List.getElem?_map, List.getElem?_eq_getElem i.isLt, Option.map_some]
    rfl
  obtain ⟨top, siblings, htop, hproof, hfold⟩ :=
    climb std leaves.length (by rw [List.length_map]; omega) hleaf
  have htree : newMerkleTree std leaves = merkleLevels std leaves.length (leaves.map (·.hash)) :=
    if_neg hne
  refine ⟨siblings, htree ▸ hproof, ?_⟩
  rw [rootOfWitness, hexDecodeString_encode, htree, merkleRoot, htop]
  exact hfold

end Foundation.Hermes
