import Chratos.Relay.PartialMerkleTree

/-!
# Chratos — one tree, three computations of its root

`ComputeMerkleRoot` keeps a binary counter of subtrees, `CBlock::BuildMerkleTree` an array of rows,
and `CPartialMerkleTree::CalcHash` recurses from the top. All three compute `node` at the height of
the tree.
-/

namespace Chratos

open MerkleTree List MerkleMachine CPartialMerkleTree

variable {hash256 : List UInt8 → Uint256} {leaves : List Uint256}

/-- Root and flag of the loops are those of the tree. -/
theorem MerkleMachine.computeMerkleRoot_eq_root (hne : leaves ≠ [])
    (hlength : leaves.length < 2 ^ 31) : MerkleMachine.computeMerkleRoot hash256 leaves =
      some (root (hashPair hash256) (Nat.clog 2 leaves.length) leaves,
        twins (hashPair hash256) (Nat.clog 2 leaves.length) leaves) := by
  rw [computeMerkleRoot_eq (by omega), Chratos.computeMerkleRoot_eq hne]

theorem root_eq_top (hne : leaves ≠ []) :
    root (hashPair hash256) (Nat.clog 2 leaves.length) leaves =
      node (hashPair hash256) leaves (Nat.clog 2 leaves.length) 0 :=
  root_eq_node hne (Nat.le_pow_clog (by decide) _)

/-! ## Agreement -/

/-- A hash to compute with, of the lowest bytes of a pair. -/
def treeHash (bytes : List UInt8) : Uint256 :=
  BitVec.ofNat 256 (3 * (bytes.getD 0 0).toNat + 5 * (bytes.getD 32 0).toNat + 7)

/-- **Branches verify**: the branch of a leaf leads from it to the root. -/
theorem merkleBranch_verifies (leaves : List Uint256) (i : Nat) (hi : i < leaves.length)
    (hlength : leaves.length ≤ 2 ^ 31 - 1) :
    ∃ branch root mutated, MerkleMachine.computeMerkleBranch hash256 leaves i = some branch ∧
      MerkleMachine.computeMerkleRoot hash256 leaves = some (root, mutated) ∧
      MerkleMachine.computeMerkleRootFromBranch hash256 (leaves.get ⟨i, hi⟩) branch i = root := by
  have hne : leaves ≠ [] := ne_nil_of_length_pos (by omega)
  refine ⟨_, _, _, computeMerkleBranch_eq (by omega) hi,
    computeMerkleRoot_eq_root hne (by omega), ?_⟩
  have hleaf : leaves.get ⟨i, hi⟩ = node (hashPair hash256) leaves 0 i := by
    rw [node, getD_eq_getElem?_getD, getElem?_eq_getElem hi]
    rfl
  -- at the height of the tree only the first place is left
  have htop : i / 2 ^ Nat.clog 2 leaves.length = 0 :=
    Nat.div_eq_of_lt (lt_of_lt_of_le hi (Nat.le_pow_clog (by decide) _))
  rw [computeMerkleRootFromBranch, hleaf, foldl_siblings hi, htop,
    root_eq_top hne]

theorem merkleBranch_verifies_last :
    ∃ branch root mutated, MerkleMachine.computeMerkleBranch treeHash [1, 2, 3] 2 = some branch ∧
      MerkleMachine.computeMerkleRoot treeHash [1, 2, 3] = some (root, mutated) ∧
      MerkleMachine.computeMerkleRootFromBranch treeHash 3 branch 2 = root :=
  merkleBranch_verifies [1, 2, 3] 2 (by decide) (by decide)

/-! ## Mutation -/

/-- The pairs that are hashed for the nodes of the tree. -/
def hashedPairs (hash256 : List UInt8 → Uint256) (leaves : List Uint256) : List (Uint256 × Uint256) :=
  nodes (hashPair hash256) (Nat.clog 2 leaves.length) leaves

/-- No leaf is the hash of one of the pairs. -/
def NoLeafHashed (hash256 : List UInt8 → Uint256) (leaves : List Uint256)
    (pairs : List (Uint256 × Uint256)) : Prop :=
  ∀ q ∈ pairs, hashPair hash256 q.1 q.2 ∉ leaves

instance (leaves : List Uint256) (pairs : List (Uint256 × Uint256)) :
    Decidable (NoLeafHashed hash256 leaves pairs) :=
  -- by the list: there are finitely many pairs of hashes as well, which could be tried
  List.decidableBAll (fun q : Uint256 × Uint256 => hashPair hash256 q.1 q.2 ∉ leaves) pairs

theorem NoLeafHashed.headD_ne {xs : List Uint256} {pairs : List (Uint256 × Uint256)} (hne : xs ≠ [])
    (h : NoLeafHashed hash256 xs pairs) : ∀ q ∈ pairs, xs.headD default ≠ hashPair hash256 q.1 q.2 := by
  intro q hq hnode
  cases xs with
  | nil => exact hne rfl
  | cons x xs => exact h q hq (hnode ▸ mem_cons_self)

/-- **A mutation is reported** for one of two lists with the same root. -/
theorem merkle_mutation_reported (xs ys : List Uint256) (hx : xs ≠ []) (hy : ys ≠ [])
    (hlenx : xs.length < 2 ^ 31) (hleny : ys.length < 2 ^ 31) (hne : xs ≠ ys)
    (hapart : Apart (hashPair hash256) (hashedPairs hash256 xs) (hashedPairs hash256 ys))
    (hleafx : NoLeafHashed hash256 xs (hashedPairs hash256 ys))
    (hleafy : NoLeafHashed hash256 ys (hashedPairs hash256 xs)) : ∃ rootx mutatedx rooty mutatedy,
      MerkleMachine.computeMerkleRoot hash256 xs = some (rootx, mutatedx) ∧
      MerkleMachine.computeMerkleRoot hash256 ys = some (rooty, mutatedy) ∧
      (rootx = rooty → mutatedx = true ∨ mutatedy = true) := by
  refine ⟨_, _, _, _, computeMerkleRoot_eq_root hx hlenx,
    computeMerkleRoot_eq_root hy hleny, ?_⟩
  intro heq
  by_contra hflags
  have htwinsx := Bool.eq_false_iff.mpr (not_or.mp hflags).1
  have htwinsy := Bool.eq_false_iff.mpr (not_or.mp hflags).2
  exact hne
    (root_inj_of_heads hapart (hleafx.headD_ne hx) heq hx hy (hleafy.headD_ne hy) htwinsx htwinsy)

theorem hashedPairs_two_rows (hlow : 2 < leaves.length) (hhigh : leaves.length ≤ 4) :
    hashedPairs hash256 leaves = nodes (hashPair hash256) 2 leaves := by
  rw [hashedPairs, clog_eq (d := 1) hlow hhigh]

theorem hashedPairs_treeHash : hashedPairs treeHash [1, 2, 3] = [(20, 31), (1, 2), (3, 3)] := by
  rw [hashedPairs_two_rows (by decide) (by decide)]
  decide +kernel

/-- The last leaf given twice. -/
theorem merkle_mutation_reported_doubled : ∃ rootx mutatedx rooty mutatedy,
      MerkleMachine.computeMerkleRoot treeHash [1, 2, 3] = some (rootx, mutatedx) ∧
      MerkleMachine.computeMerkleRoot treeHash [1, 2, 3, 3] = some (rooty, mutatedy) ∧
      (rootx = rooty → mutatedx = true ∨ mutatedy = true) := by
  have hfour : hashedPairs treeHash [1, 2, 3, 3] = [(20, 31), (1, 2), (3, 3)] := by
    rw [hashedPairs_two_rows (by decide) (by decide)]
    decide +kernel
  apply merkle_mutation_reported [1, 2, 3] [1, 2, 3, 3] (by decide) (by decide) (by decide) (by decide)
    (by decide)
  · rw [hashedPairs_treeHash, hfour]
    decide +kernel
  · rw [hfour]
    decide +kernel
  · rw [hashedPairs_treeHash]
    decide +kernel

end Chratos
