import Chratos.Primitives.Transaction

/-!
# Chratos — merkle roots (`consensus/merkle.cpp`)

The constant-space computation: `inner` holds, level by level, the root of the last complete
subtree of that height, so adding a leaf is adding one to a binary counter whose set digits
carry hashes. The final sweep pairs the rightmost branch with itself where a level is odd.
While a leaf is carried up, meeting an equal hash is remembered: that is the *mutated* flag,
raised when a run of transactions is repeated without changing the root.
-/

namespace Chratos

section

variable (hash256 : List UInt8 → Uint256)

/-- The hash of two children. -/
def hashPair (a b : Uint256) : Uint256 :=
  hash256 (serUint256 a ++ serUint256 b)

/-- Carry a leaf up to the first empty level. -/
def addLeaf : List (Option Uint256) → Uint256 → Bool → List (Option Uint256) × Bool
  | [], h, mutated => ([some h], mutated)
  | none :: inner, h, mutated => (some h :: inner, mutated)
  | some a :: inner, h, mutated =>
    let r := addLeaf inner (hashPair hash256 a h) (mutated || a == h)
    (none :: r.1, r.2)

/-- The sweep above the lowest set level: an empty level pairs the hash with itself. -/
def sweepUp : List (Option Uint256) → Uint256 → Uint256
  | [], h => h
  | none :: inner, h => sweepUp inner (hashPair hash256 h h)
  | some a :: inner, h => sweepUp inner (hashPair hash256 a h)

def sweep : List (Option Uint256) → Uint256
  | [] => 0
  | none :: inner => sweep inner
  | [some h] => h
  | some h :: inner => sweepUp hash256 inner (hashPair hash256 h h)

/-- `ComputeMerkleRoot`: the root and the mutation flag. -/
def computeMerkleRoot (leaves : List Uint256) : Uint256 × Bool :=
  let r := leaves.foldl (fun r h => addLeaf hash256 r.1 h r.2) ([], false)
  (sweep hash256 r.1, r.2)

def blockMerkleRoot (block : CBlock) : Uint256 × Bool :=
  computeMerkleRoot hash256 (block.vtx.map (CTransaction.getHash hash256))

/-- `BlockWitnessMerkleRoot` with `fIgnoreCoinStake`: the coinbase counts as zero, the second
transaction is left out, and the leaf its place leaves free stays null at the end. -/
def blockWitnessMerkleRoot (block : CBlock) : Uint256 :=
  let hashes := (block.vtx.drop 2).map (CTransaction.getWitnessHash hash256)
  let pad := List.replicate (block.vtx.length - 1 - hashes.length) 0
  (computeMerkleRoot hash256 (0 :: hashes ++ pad)).1

end

end Chratos
