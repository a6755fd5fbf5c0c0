import Chratos.Properties.MerkleTrees

/-!
# Chratos — what a partial merkle tree proves

A peer sends a `CPartialMerkleTree` with the transactions of a block that match a filter.
-/

namespace Chratos

open MerkleTree Codec BitPack List CPartialMerkleTree MerkleMachine

variable {hash256 : List UInt8 → Uint256}

/-! ## Completeness -/

theorem matchesBelow_top {n height : Nat} {vMatch : List Bool} (hfits : n ≤ 2 ^ height) :
    matchesBelow n vMatch height 0 = (List.range n).filter fun p => vMatch.getD p false := by
  obtain ⟨k, hk⟩ := Nat.exists_eq_add_of_le hfits
  rw [matchesBelow, leavesBelow, zero_mul, hk, ← range_eq_range', range_add, filter_append]
  have hin : (List.range n).filter (fun p => decide (p < n) && vMatch.getD p false) =
      (List.range n).filter fun p => vMatch.getD p false := by
    apply filter_congr
    intro p hp
    rw [decide_eq_true (mem_range.mp hp), Bool.true_and]
  have hout :
    ((List.range k).map (n + ·)).filter (fun p => decide (p < n) && vMatch.getD p false) = [] := by
    rw [filter_eq_nil_iff]
    intro p hp
    obtain ⟨j, -, rfl⟩ := mem_map.mp hp
    simp
  rw [hin, hout, append_nil]

/-- The check at the end of `ExtractMatches` allows for the bits that fill the last byte. -/
theorem bytes_of_filled (n : Nat) : (n + ((n + 7) / 8 * 8 - n) + 7) / 8 = (n + 7) / 8 := by
  omega

section

variable {txids : List Uint256} {vMatch : List Bool} {written : List Bool × List Uint256}

section

variable (hpos : 1 ≤ txids.length) (hmax : txids.length ≤ MAX_BLOCK_BASE_SIZE / 60)
  (hwritten : traverseAndBuild hash256 txids.length txids vMatch (Nat.clog 2 txids.length) 0 = written)
include hpos hmax hwritten

/-- The height, and how much is written for so many transactions. -/
theorem written_sizes :
    Nat.clog 2 txids.length ≤ 16 ∧ written.2.length ≤ txids.length ∧
      written.2.length ≤ written.1.length ∧ written.1.length < 2 ^ 17 := by
  have hlimit : MAX_BLOCK_BASE_SIZE / 60 = 33333 := rfl
  have hheight : Nat.clog 2 txids.length ≤ 16 := Nat.clog_le_of_le_pow (by omega)
  have hpow : 2 ^ (Nat.clog 2 txids.length + 1) ≤ 2 ^ 17 := Nat.pow_le_pow_right (by decide) (by omega)
  have hsizes : written.2.length ≤ min (2 ^ Nat.clog 2 txids.length)
        (txids.length - 0 * 2 ^ Nat.clog 2 txids.length) ∧
      written.2.length ≤ written.1.length ∧ written.1.length < 2 ^ (Nat.clog 2 txids.length + 1) := by
    rw [← hwritten]
    exact length_traverseAndBuild (by omega) (by omega) (by omega)
  omega

/-- Reading a tree that has been built, the last byte filled up. -/
theorem extractMatches_build (hnodup : txids.Nodup)
    (hapart : Apart (hashPair hash256) (hashedPairs hash256 txids) (hashedPairs hash256 txids))
    {t : CPartialMerkleTree} (hcount : t.nTransactions.toNat = txids.length) (hgood : t.fBad = false)
    (hhash : t.vHash = written.2) {pad : List Bool} (hbits : t.vBits = written.1 ++ pad)
    (hpad : (t.vBits.length + 7) / 8 = (written.1.length + 7) / 8) : t.extractMatches hash256 =
      (root (hashPair hash256) (Nat.clog 2 txids.length) txids,
        ((List.range txids.length).filter fun i => vMatch.getD i false).map (fun i => txids.getD i 0),
        (List.range txids.length).filter fun i => vMatch.getD i false) := by
  have hlimit : MAX_BLOCK_BASE_SIZE / 60 = 33333 := rfl
  have hfits : txids.length ≤ 2 ^ Nat.clog 2 txids.length := Nat.le_pow_clog (by decide) _
  obtain ⟨hheight, hleaves, hless, -⟩ := written_sizes hpos hmax hwritten
  have hread : t.traverseAndExtract hash256 (Nat.clog 2 txids.length) 0 { fBad := t.fBad } = _ :=
    traverseAndExtract_build (by omega) hcount (by omega)
      (fun d p hd hright => node_ne_of_nodup hnodup hfits hd hapart hright) le_rfl
      (by rw [hwritten]; exact hbits) (by rw [hwritten, append_nil]; exact hhash)
  have hlength : t.vBits.length = written.1.length + pad.length := by rw [hbits, length_append]
  rw [hwritten, matchesBelow_top hfits, hgood] at hread
  -- none of the checks fails
  simp only [extractMatches, hcount, treeHeight_eq
    (show txids.length ≤ 2 ^ 31 by omega), hgood, hread]
  rw [if_neg (by omega), if_neg (by omega), if_neg (by rw [hhash]; omega),
    if_neg (by rw [hhash, hlength]; omega)]
  simp only [CPartialMerkleTree.Extract.found, zero_add, nil_append, Bool.false_eq_true,
    if_false, hpad, hhash, ne_eq, not_true_eq_false]
  rw [root_eq_top (ne_nil_of_length_pos hpos)]

end

/-- **Completeness**: the root, the matched transactions and their places in increasing order. -/
theorem partialMerkleTree_complete (txids : List Uint256) (vMatch : List Bool) (hnodup : txids.Nodup)
    (hpos : 1 ≤ txids.length) (hmax : txids.length ≤ MAX_BLOCK_BASE_SIZE / 60)
    (hapart : Apart (hashPair hash256) (hashedPairs hash256 txids) (hashedPairs hash256 txids)) :
    ∃ t root mutated, Reads unserialize (build hash256 txids vMatch).serialize t ∧
      MerkleMachine.computeMerkleRoot hash256 txids = some (root, mutated) ∧
      t.extractMatches hash256 = (root,
          ((List.range txids.length).filter fun i => vMatch.getD i false).map (fun i => txids.getD i 0),
          (List.range txids.length).filter fun i => vMatch.getD i false) := by
  have hlimit : MAX_BLOCK_BASE_SIZE / 60 = 33333 := rfl
  obtain ⟨-, hleaves, -, hbits⟩ := @written_sizes hash256 txids vMatch _ hpos hmax rfl
  have hcount : (UInt32.ofNat txids.length).toNat = txids.length :=
    UInt32.toNat_ofNat_of_lt' (show txids.length < 2 ^ 32 by omega)
  have hbuild : build hash256 txids vMatch =
      { nTransactions := UInt32.ofNat txids.length
        vBits := (traverseAndBuild hash256 txids.length txids vMatch
          (Nat.clog 2 txids.length) 0).1
        vHash := (traverseAndBuild hash256 txids.length txids vMatch
          (Nat.clog 2 txids.length) 0).2 } := by
    simp only [build, hcount, treeHeight_eq (show txids.length ≤ 2 ^ 31 by omega)]
  have hsize : MAX_SIZE = 2 ^ 25 := rfl
  refine ⟨_, _, _, reads_unserialize ?_ ?_ ?_,
    computeMerkleRoot_eq_root (ne_nil_of_length_pos hpos) (by omega), ?_⟩
  · rw [hbuild]
  · rw [hbuild]
    exact le_trans hleaves (by omega)
  · rw [hbuild]
    dsimp only
    omega
  · rw [hbuild]
    apply extractMatches_build hpos hmax rfl hnodup hapart hcount rfl rfl rfl
    rw [length_append, length_replicate]
    exact bytes_of_filled _

end

/-- The second and the third of three transactions. -/
theorem partialMerkleTree_complete_three : ∃ t root mutated, Reads unserialize
        (build treeHash [1, 2, 3] [false, true, true]).serialize t ∧
      MerkleMachine.computeMerkleRoot treeHash [1, 2, 3] = some (root, mutated) ∧
      t.extractMatches treeHash = (root, [2, 3], [1, 2]) := by
  apply partialMerkleTree_complete [1, 2, 3] [false, true, true] (by decide) (by decide) (by decide)
  rw [hashedPairs_treeHash]
  decide +kernel

/-! ## Soundness -/

/-- Nothing else hashes to the hash of one of the pairs. -/
def NoOtherPreimage (hash256 : List UInt8 → Uint256) (pairs : List (Uint256 × Uint256)) : Prop :=
  ∀ q ∈ pairs, ∀ a b, hashPair hash256 a b = hashPair hash256 q.1 q.2 → (a, b) = q

theorem not_of_ite_ne {α β : Type} {c : Prop} [Decidable c] {f : α → β} {a x : α} {z : β}
    (h : f (if c then a else x) ≠ z) (ha : f a = z) : ¬ c := by
  intro hc
  rw [if_pos hc] at h
  exact h ha

/-- A root that is not zero has passed all the checks. -/
theorem extractMatches_root {t : CPartialMerkleTree} (h : (t.extractMatches hash256).1 ≠ 0) :
    t.nTransactions.toNat ≠ 0 ∧ t.nTransactions.toNat ≤ MAX_BLOCK_BASE_SIZE / 60 ∧
      ∃ found, t.traverseAndExtract hash256 (treeHeight t.nTransactions.toNat 32 0) 0
          { fBad := t.fBad } = found ∧
        found.2.fBad = false ∧
          t.extractMatches hash256 = (found.1, found.2.vMatch, found.2.vnIndex) := by
  rw [extractMatches] at h ⊢
  dsimp only at h ⊢
  have hsome := not_of_ite_ne (f := Prod.fst) h rfl
  rw [if_neg hsome] at h ⊢
  have hmax := not_of_ite_ne (f := Prod.fst) h rfl
  rw [if_neg hmax] at h ⊢
  have hhashes := not_of_ite_ne (f := Prod.fst) h rfl
  rw [if_neg hhashes] at h ⊢
  have hbits := not_of_ite_ne (f := Prod.fst) h rfl
  rw [if_neg hbits] at h ⊢
  refine ⟨hsome, Nat.le_of_not_lt hmax, _, rfl, ?_⟩
  have hgood := not_of_ite_ne (f := id) h rfl
  rw [if_neg hgood] at h ⊢
  have hused := not_of_ite_ne (f := id) h rfl
  rw [if_neg hused] at h ⊢
  have hconsumed := not_of_ite_ne (f := id) h rfl
  rw [if_neg hconsumed]
  exact ⟨Bool.eq_false_iff.mpr hgood, rfl⟩

/-- **Soundness**: if the root of the block comes out and is not zero, every match is a transaction of
the block at its place. -/
theorem partialMerkleTree_sound (txids : List Uint256)
    (hpreimage : NoOtherPreimage hash256 (hashedPairs hash256 txids)) (t : CPartialMerkleTree)
    (hcount : t.nTransactions.toNat = txids.length) (root : Uint256) (mutated : Bool)
    (hroot : MerkleMachine.computeMerkleRoot hash256 txids = some (root, mutated)) (hzero : root ≠ 0)
    (hextract : (t.extractMatches hash256).1 = root) :
    (t.extractMatches hash256).2.1.length = (t.extractMatches hash256).2.2.length ∧
      ∀ txid index, (txid, index) ∈ (t.extractMatches hash256).2.1.zip (t.extractMatches hash256).2.2 →
        index < txids.length ∧ txids[index]? = some txid := by
  have hlimit : MAX_BLOCK_BASE_SIZE / 60 = 33333 := rfl
  obtain ⟨hsome, hmax, found, hfound, hgood, heq⟩ := extractMatches_root (hextract ▸ hzero)
  rw [hcount] at hsome hmax hfound
  have hne : txids ≠ [] := ne_nil_of_length_pos (by omega)
  have hheight : Nat.clog 2 txids.length ≤ 31 := Nat.clog_le_of_le_pow (by omega)
  rw [treeHeight_eq (by omega)] at hfound
  rw [computeMerkleRoot_eq_root hne (by omega)] at hroot
  have htop : found.1 = node (hashPair hash256) txids (Nat.clog 2 txids.length) 0 := by
    rw [heq] at hextract
    rw [← root_eq_top hne]
    exact hextract.trans (Prod.mk.inj (Option.some.inj hroot)).1.symm
  obtain ⟨places, hin, hmatch, hindex⟩ :
    CPartialMerkleTree.Genuine txids { fBad := t.fBad } found.2 := by
    rw [← hfound] at hgood htop ⊢
    exact .traverseAndExtract (by omega) hcount hheight (Nat.le_pow_clog (by decide) _) hpreimage le_rfl
      (by omega) hgood htop
  rw [nil_append] at hmatch hindex
  rw [heq]
  rw [hmatch, hindex, length_map]
  refine ⟨rfl, ?_⟩
  intro txid index hmem
  rw [zip_map_left, mem_map] at hmem
  obtain ⟨⟨p, q⟩, hpq, hpair⟩ := hmem
  obtain ⟨rfl, rfl⟩ := Prod.mk.inj hpair
  have hsame : p = q := by
    obtain ⟨i, hi⟩ := mem_iff_getElem?.mp hpq
    rw [getElem?_zip_eq_some] at hi
    exact Option.some.inj (hi.1.symm.trans hi.2)
  subst hsame
  have hlt := hin p (of_mem_zip hpq).1
  refine ⟨hlt, ?_⟩
  show txids[p]? = some (txids.getD p 0)
  rw [getD_eq_getElem?_getD, getElem?_eq_getElem hlt, Option.getD_some]

/-- A hash of which one pair is known. -/
def pairHash (bytes : List UInt8) : Uint256 :=
  if bytes = serUint256 1 ++ serUint256 2 then 5 else 0

theorem noOtherPreimage_pairHash : NoOtherPreimage pairHash (hashedPairs pairHash [1, 2]) := by
  have hpairs : hashedPairs pairHash [1, 2] = [(1, 2)] := by
    rw [hashedPairs, clog_eq (d := 0) (by decide) (by decide)]
    decide +kernel
  intro q hq a b h
  rw [hpairs, mem_singleton] at hq
  subst hq
  have hfive : hashPair pairHash 1 2 = 5 := by rw [hashPair, pairHash, if_pos rfl]
  rw [hfive, hashPair, pairHash] at h
  split at h
  · rename_i hbytes
    obtain ⟨rfl, hrest⟩ := determines_serUint256 trivial trivial hbytes
    rw [determines_serUint256.view_eq trivial trivial hrest]
  · exact absurd h (by decide)

/-- The first of two transactions. -/
def firstOfTwo : CPartialMerkleTree where
  nTransactions := 2
  vBits := [true, true, false, false, false, false, false, false]
  vHash := [1, 2]

theorem partialMerkleTree_sound_two : firstOfTwo.extractMatches pairHash = (5, [1], [0]) ∧
      ∀ txid index, (txid, index) ∈
          (firstOfTwo.extractMatches pairHash).2.1.zip (firstOfTwo.extractMatches pairHash).2.2 →
        index < 2 ∧ [1, 2][index]? = some txid := by
  refine ⟨by decide +kernel, ?_⟩
  exact (partialMerkleTree_sound [1, 2] noOtherPreimage_pairHash firstOfTwo rfl 5 false
    (by decide +kernel) (by decide) (by decide +kernel)).2

/-- A bit too many, so that `ExtractMatches` fails after it has found a match. -/
def spuriousMatch : CPartialMerkleTree where
  nTransactions := 1
  vBits := true :: List.replicate 15 false
  vHash := [5]

/-- **A root of zero**: the failure is taken for it, and the match is none of the block. No pair is
hashed, so the hash plays no part. -/
theorem zero_root_proves_nothing :
    spuriousMatch.nTransactions.toNat = [(0 : Uint256)].length ∧ [(0 : Uint256)].Nodup ∧
      NoOtherPreimage treeHash (hashedPairs treeHash [0]) ∧
      MerkleMachine.computeMerkleRoot treeHash [0] = some (0, false) ∧
      spuriousMatch.extractMatches treeHash = (0, [5], [0]) ∧ [(0 : Uint256)][0]? ≠ some 5 := by
  refine ⟨rfl, nodup_singleton 0, ?_, rfl, by with_unfolding_all rfl, by decide⟩
  exact nofun

/-! ## The size

Both what is stored and what makes a tree larger than promised are counted along the walk, from the
number of transactions and the matches alone. -/

section

variable {n height pos : Nat} {vTxid : List Uint256} {vMatch : List Bool}

/-- The hashes that are stored: one for a matched leaf or where the walk stops. -/
def storedHashes (n : Nat) (vMatch : List Bool) : Nat → Nat → Nat
  | 0, _ => 1
  | height + 1, pos =>
    if parentOfMatch n vMatch (height + 1) pos then
      storedHashes n vMatch height (pos * 2) +
        if pos * 2 + 1 < calcTreeWidth n height then storedHashes n vMatch height (pos * 2 + 1) else 0
    else 1

/-- The inner nodes with one child only that the walk descends from. -/
def loneNodes (n : Nat) (vMatch : List Bool) : Nat → Nat → Nat
  | 0, _ => 0
  | height + 1, pos =>
    if parentOfMatch n vMatch (height + 1) pos then
      loneNodes n vMatch height (pos * 2) +
        if pos * 2 + 1 < calcTreeWidth n height then loneNodes n vMatch height (pos * 2 + 1) else 1
    else 0

/-- The bytes of flags for which the documented size leaves room beside so many hashes; more than 252
of either take three bytes to count. -/
def flagRoom (nHashes : Nat) : Nat :=
  if nHashes < 253 then 4 + (nHashes + 3) / 4
  else max ((nHashes + 3) / 4) (min 252 (2 + (nHashes + 3) / 4))

theorem matchesBelow_ne_nil (h : parentOfMatch n vMatch height pos = true) :
    matchesBelow n vMatch height pos ≠ [] := by
  obtain ⟨p, hp, hmatch⟩ := any_eq_true.mp h
  exact ne_nil_of_mem (mem_filter.mpr ⟨hp, hmatch⟩)

/-- Each match needs at most one hash a level. -/
theorem storedHashes_le : 1 ≤ storedHashes n vMatch height pos ∧ storedHashes n vMatch height pos ≤
      1 + (matchesBelow n vMatch height pos).length * height := by
  induction height generalizing pos with
  | zero => exact ⟨le_refl 1, le_refl 1⟩
  | succ height ih =>
    rw [storedHashes]
    by_cases hparent : parentOfMatch n vMatch (height + 1) pos = true
    · have hsome := length_pos_iff.mpr (matchesBelow_ne_nil hparent)
      obtain ⟨hsize, hleft⟩ := @ih (pos * 2)
      obtain ⟨-, hright⟩ := @ih (pos * 2 + 1)
      rw [matchesBelow_succ, length_append] at hsome ⊢
      rw [if_pos hparent, add_mul, mul_add_one _ height, mul_add_one _ height]
      split <;> omega
    · rw [if_neg hparent]
      exact ⟨Nat.le_refl 1, Nat.le_add_right 1 _⟩

/-- What the walk writes. Each inner node but the lone ones joins two, so that the bits go with the
hashes. -/
theorem traverseAndBuild_sizes : (traverseAndBuild hash256 n vTxid vMatch height pos).2.length =
        storedHashes n vMatch height pos ∧
      (traverseAndBuild hash256 n vTxid vMatch height pos).1.length + 1 =
        2 * storedHashes n vMatch height pos + loneNodes n vMatch height pos := by
  induction height generalizing pos with
  | zero => exact ⟨rfl, rfl⟩
  | succ height ih =>
    rw [traverseAndBuild, storedHashes, loneNodes]
    obtain ⟨hleft, hbits⟩ := @ih (pos * 2)
    obtain ⟨hright, hbits'⟩ := @ih (pos * 2 + 1)
    by_cases hparent : parentOfMatch n vMatch (height + 1) pos = true
    · rw [if_pos hparent, if_pos hparent, if_pos hparent]
      split
      · simp only [length_cons, length_append]
        omega
      · simp only [length_cons]
        omega
    · rw [if_neg hparent, if_neg hparent, if_neg hparent]
      exact ⟨rfl, rfl⟩

end

theorem CPartialMerkleTree.length_serialize (t : CPartialMerkleTree) : t.serialize.length =
    4 + (writeCompactSize t.vHash.length).length + 32 * t.vHash.length +
      (writeCompactSize ((t.vBits.length + 7) / 8)).length + (t.vBits.length + 7) / 8 := by
  have hhash : (t.vHash.flatMap serUint256).length = 32 * t.vHash.length := by
    simp [length_flatMap, serUint256, mul_comm]
  simp only [serialize, serVector, serBytes, serUInt32, length_append, length_leBytes, hhash,
    length_packBits]
  omega

/-- **The documented size** of a tree that has been built: the bounds on the hashes always hold. That on
the bits holds exactly if the walk descends from no node with a single child, that on the bytes exactly
if the number of hashes fits into three bytes and those nodes leave room for the flags. -/
theorem partialMerkleTree_size_iff (txids : List Uint256) (vMatch : List Bool)
    (hpos : 1 ≤ txids.length) (hmax : txids.length ≤ 2 ^ 31) :
    let tree := build hash256 txids vMatch
    let hashes := storedHashes txids.length vMatch (treeHeight txids.length 32 0) 0
    let lone := loneNodes txids.length vMatch (treeHeight txids.length 32 0) 0
    (tree.vHash.length ≤ 1 + ((range txids.length).filter fun i => vMatch.getD i false).length *
        treeHeight txids.length 32 0 ∧ tree.vHash.length ≤ txids.length) ∧
    (tree.vBits.length ≤ 2 * tree.vHash.length - 1 ↔ lone = 0) ∧
    (tree.serialize.length ≤ 10 + (129 * tree.vHash.length + 3) / 4 ↔
      hashes < 2 ^ 16 ∧ (2 * hashes + lone + 6) / 8 ≤ flagRoom hashes) := by
  have hfits : txids.length ≤ 2 ^ Nat.clog 2 txids.length := Nat.le_pow_clog (by decide) _
  have hcount : (UInt32.ofNat txids.length).toNat = txids.length :=
    UInt32.toNat_ofNat_of_lt' (show txids.length < 2 ^ 32 by omega)
  have hheight : treeHeight txids.length 32 0 = Nat.clog 2 txids.length := treeHeight_eq hmax
  obtain ⟨hstored, hbits⟩ := @traverseAndBuild_sizes hash256 txids.length
    (Nat.clog 2 txids.length) 0 txids vMatch
  obtain ⟨hsome, hhashes⟩ := @storedHashes_le txids.length (Nat.clog 2 txids.length) 0 vMatch
  have hleaves := @length_traverseAndBuild 0 (Nat.clog 2 txids.length) txids.length txids vMatch
    hash256 hmax (Nat.clog_le_of_le_pow hmax) (by omega)
  rw [matchesBelow_top hfits] at hhashes
  intro tree hashes lone
  have htree : tree.vHash.length = hashes ∧ tree.vBits.length + 1 = 2 * hashes + lone := by
    simp only [tree, hashes, lone, build, hcount, hheight]
    exact ⟨hstored, hbits⟩
  rw [length_serialize, htree.1, length_writeCompactSize, length_writeCompactSize, flagRoom]
  simp only [hashes, hheight] at htree ⊢
  refine ⟨⟨hhashes, by omega⟩, by omega, ?_⟩
  split_ifs <;> omega

/-- The last of three transactions matches: two hashes, and four bits where there should be three. -/
theorem partialMerkleTree_size_three :
    ¬ (build treeHash [1, 2, 3] [false, false, true]).vBits.length ≤
      2 * (build treeHash [1, 2, 3] [false, false, true]).vHash.length - 1 := by
  decide +kernel

theorem partialMerkleTree_size_two : (build treeHash [1, 2] [true, true]).vBits.length ≤
        2 * (build treeHash [1, 2] [true, true]).vHash.length - 1 ∧
      (build treeHash [1, 2] [true, true]).serialize.length ≤
        10 + (129 * (build treeHash [1, 2] [true, true]).vHash.length + 3) / 4 := by
  have hsize := @partialMerkleTree_size_iff treeHash [1, 2] [true, true] (by decide) (by decide)
  exact ⟨hsize.2.1.mpr (by decide +kernel), hsize.2.2.mpr (by decide +kernel)⟩

end Chratos
