import Chratos.Consensus.MerkleMachine

/-!
# Chratos — the merkle tree row by row (`primitives/block.h`: `BuildMerkleTree`)

All rows of the tree are written into one array, the leaves first. `j` is where the row begins that is
read, `nSize` its length; the last node of an odd row is its own right sibling, by `min`. The counters
are `int`s, and an overflow is undefined (`none`): the array of more than `2 ^ 30` leaves is too long.
-/

namespace Chratos

open MerkleTree List Option

/-- A round of the inner loop, for `i = 2 * k`, with the step to the next `i`. -/
def pushPair (hash256 : List UInt8 → Uint256) (j nSize : Nat) (vMerkleTree : List Uint256) (k : Nat) :
    Option (List Uint256) :=
  let i := 2 * k
  let i2 := min (i + 1) (nSize - 1)
  if j + i < 2 ^ 31 ∧ j + i2 < 2 ^ 31 ∧ i + 2 < 2 ^ 31 then
    some (vMerkleTree ++ [hashPair hash256 (vMerkleTree.getD (j + i) 0) (vMerkleTree.getD (j + i2) 0)])
  else none

/-- The inner loop: the row above the `nSize` hashes from `j` on. -/
def buildRow (hash256 : List UInt8 → Uint256) (vMerkleTree : List Uint256) (j nSize : Nat) :
    Option (List Uint256) :=
  (List.range ((nSize + 1) / 2)).foldlM (pushPair hash256 j nSize) vMerkleTree

/-- The outer loop. -/
def buildRows (hash256 : List UInt8 → Uint256) (vMerkleTree : List Uint256) (j nSize : Nat) :
    Option (List Uint256) :=
  if 1 < nSize then
    (buildRow hash256 vMerkleTree j nSize).bind fun rows =>
      if j + nSize < 2 ^ 31 ∧ nSize + 1 < 2 ^ 31 then
        buildRows hash256 rows (j + nSize) ((nSize + 1) / 2)
      else none
  else some vMerkleTree
termination_by nSize

def buildMerkleTree (hash256 : List UInt8 → Uint256) (txids : List Uint256) : Option Uint256 :=
  (buildRows hash256 txids 0 txids.length).map fun vMerkleTree => vMerkleTree.getLast?.getD 0

/-- `CBlock::BuildMerkleTree`. -/
def CBlock.buildMerkleTree (hash256 : List UInt8 → Uint256) (block : CBlock) : Option Uint256 :=
  Chratos.buildMerkleTree hash256 (block.vtx.map (CTransaction.getHash hash256))

/-! ## Rows of nodes -/

/-- The number of nodes at a height. -/
def rowWidth (n d : Nat) : Nat := (n + 2 ^ d - 1) / 2 ^ d

theorem lt_rowWidth_iff {n d p : Nat} : p < rowWidth n d ↔ p * 2 ^ d < n := by
  have hpos := Nat.two_pow_pos d
  rw [rowWidth, Nat.lt_iff_add_one_le, Nat.le_div_iff_mul_le hpos, Nat.succ_mul]
  omega

theorem rowWidth_zero (n : Nat) : rowWidth n 0 = n := by
  rw [rowWidth, pow_zero, Nat.add_sub_cancel, Nat.div_one]

theorem rowWidth_succ (n d : Nat) : rowWidth n (d + 1) = (rowWidth n d + 1) / 2 := by
  apply eq_of_forall_lt_iff
  intro p
  rw [lt_rowWidth_iff, mul_two_pow_succ, ← lt_rowWidth_iff]
  omega

variable {hash256 : List UInt8 → Uint256} {leaves : List Uint256}

/-- The first `m` nodes at a height. -/
def row (hash256 : List UInt8 → Uint256) (leaves : List Uint256) (d m : Nat) : List Uint256 :=
  (List.range m).map (node (hashPair hash256) leaves d)

theorem row_succ (d m : Nat) :
    row hash256 leaves d (m + 1) = row hash256 leaves d m ++ [node (hashPair hash256) leaves d m] := by
  rw [row, range_succ, map_append]
  rfl

theorem getD_row {before after : List Uint256} {d m p : Nat} (hp : p < m) :
    (before ++ row hash256 leaves d m ++ after).getD (before.length + p) 0 =
      node (hashPair hash256) leaves d p := by
  have hlength : (row hash256 leaves d m).length = m := by rw [row, length_map, length_range]
  rw [getD_eq_getElem?_getD, append_assoc, getElem?_append_right (by omega),
    Nat.add_sub_cancel_left, getElem?_append_left (by omega), row, getElem?_map,
    getElem?_range hp]
  rfl

/-- A round of the outer loop appends the next row. -/
theorem buildRow_eq (before : List Uint256) (d : Nat)
    (hint : before.length + rowWidth leaves.length d + 1 < 2 ^ 31) :
    buildRow hash256 (before ++ row hash256 leaves d (rowWidth leaves.length d)) before.length
        (rowWidth leaves.length d) = some (before ++ row hash256 leaves d (rowWidth leaves.length d) ++
        row hash256 leaves (d + 1) (rowWidth leaves.length (d + 1))) := by
  rw [buildRow, ← rowWidth_succ]
  -- the nodes of the next row, one after the other
  have hloop : ∀ m, m ≤ rowWidth leaves.length (d + 1) →
      (List.range m).foldlM (pushPair hash256 before.length (rowWidth leaves.length d))
        (before ++ row hash256 leaves d (rowWidth leaves.length d)) =
      some (before ++ row hash256 leaves d (rowWidth leaves.length d) ++
        row hash256 leaves (d + 1) m) := by
    intro m
    induction m with
    | zero =>
      intro _
      exact congrArg some (append_nil _).symm
    | succ m ih =>
      intro hm
      have hleft : 2 * m < rowWidth leaves.length d := by
        rw [rowWidth_succ] at hm
        omega
      rw [range_succ, foldlM_append, ih (by omega), row_succ (d + 1) m, ← append_assoc]
      simp only [bind_eq_bind, bind_some, foldlM_cons, foldlM_nil, pushPair]
      rw [if_pos (by omega), getD_row hleft, getD_row (by omega), node]
      by_cases hright : 2 * m + 1 < rowWidth leaves.length d
      · rw [min_eq_left (by omega), if_pos (lt_rowWidth_iff.mp hright)]
        rfl
      · rw [min_eq_right (by omega), if_neg (mt lt_rowWidth_iff.mpr hright),
          show rowWidth leaves.length d - 1 = 2 * m by omega]
        rfl
  exact hloop _ le_rfl

/-- The rows are built up to the height of the tree. What is left of the `int`s shrinks with them. -/
theorem getLast_buildRows (hne : leaves ≠ []) (hmax : leaves.length ≤ 2 ^ 30) (before : List Uint256)
    {d : Nat} (hd : d ≤ Nat.clog 2 leaves.length) (hroom : before.length + 2 ^ (30 - d) * 2 ≤ 2 ^ 31) :
    (buildRows hash256 (before ++ row hash256 leaves d (rowWidth leaves.length d)) before.length
        (rowWidth leaves.length d)).bind getLast? =
      some (node (hashPair hash256) leaves (Nat.clog 2 leaves.length) 0) := by
  have hpos : 0 < rowWidth leaves.length d := by
    rw [lt_rowWidth_iff, zero_mul]
    exact length_pos_iff.mpr hne
  have hheight : d ≤ 30 := hd.trans (Nat.clog_le_of_le_pow hmax)
  have hwidth : rowWidth leaves.length d ≤ 2 ^ (30 - d) := by
    refine not_lt.mp fun hlt => ?_
    rw [lt_rowWidth_iff, ← Nat.pow_add, Nat.sub_add_cancel hheight] at hlt
    exact hlt.not_ge hmax
  rw [buildRows]
  by_cases hmore : 1 < rowWidth leaves.length d
  · have hlt : 2 ^ d < leaves.length := by
      have := lt_rowWidth_iff.mp hmore
      rwa [one_mul] at this
    have hnext : d + 1 ≤ Nat.clog 2 leaves.length := (Nat.lt_clog_iff_pow_lt (by decide)).mpr hlt
    have hhalf : 2 ^ (30 - d) = 2 ^ (30 - (d + 1)) * 2 := by
      rw [← pow_succ]
      congr 1
      have := hnext.trans (Nat.clog_le_of_le_pow hmax)
      omega
    have ih :=
      getLast_buildRows hne hmax (before ++ row hash256 leaves d (rowWidth leaves.length d)) hnext
    rw [length_append, row, length_map, length_range, ← row, rowWidth_succ] at ih
    rw [if_pos hmore, buildRow_eq _ _ (by omega), rowWidth_succ, bind_some, if_pos (by omega)]
    exact ih (by omega)
  · -- one node is left, at the height of the tree
    have hone : rowWidth leaves.length d = 1 := by omega
    have hfits : leaves.length ≤ 2 ^ d := by
      have := mt lt_rowWidth_iff.mpr hmore
      omega
    have hheight : d = Nat.clog 2 leaves.length := le_antisymm hd (Nat.clog_le_of_le_pow hfits)
    rw [if_neg hmore, hone, row_succ, ← append_assoc, bind_some, getLast?_concat, hheight]
termination_by Nat.clog 2 leaves.length - d

/-- `BuildMerkleTree` computes the root. -/
theorem buildMerkleTree_eq (hne : leaves ≠ []) (hmax : leaves.length ≤ 2 ^ 30) :
    buildMerkleTree hash256 leaves =
      some (node (hashPair hash256) leaves (Nat.clog 2 leaves.length) 0) := by
  have hleaves : leaves = [] ++ row hash256 leaves 0 (rowWidth leaves.length 0) := by
    rw [nil_append, rowWidth_zero, row]
    apply ext_getElem?
    intro p
    rw [getElem?_map]
    by_cases hp : p < leaves.length
    · rw [getElem?_range hp, map_some, node, getD_eq_getElem?_getD,
        getElem?_eq_getElem hp, getD_some]
    · rw [getElem?_eq_none (by omega), getElem?_eq_none (by rw [length_range]; omega)]
      rfl
  have hlast := @getLast_buildRows hash256 leaves hne hmax [] 0 (Nat.zero_le _) (by decide)
  rw [← hleaves, rowWidth_zero] at hlast
  obtain ⟨vMerkleTree, hrows, htop⟩ := bind_eq_some_iff.mp hlast
  rw [buildMerkleTree, show buildRows hash256 leaves 0 leaves.length = _ from hrows, map_some, htop]
  rfl

/-! ## Too many leaves

How many leaves are too many (`buildMerkleTree_eq_none`).
-/

/-- The rows that are read come to at least twice the length of the first, less two. -/
theorem le_of_buildRows {vMerkleTree rows : List Uint256} {j nSize : Nat} (hj : j < 2 ^ 31)
    (h : buildRows hash256 vMerkleTree j nSize = some rows) : j + 2 * nSize ≤ 2 ^ 31 + 1 := by
  rw [buildRows] at h
  split at h
  · obtain ⟨next, -, h⟩ := bind_eq_some_iff.mp h
    split at h
    · have := le_of_buildRows (by omega) h
      omega
    · cases h
  · omega
termination_by nSize

theorem buildMerkleTree_eq_none (hmany : 2 ^ 30 < leaves.length) :
    buildMerkleTree hash256 leaves = none := by
  rw [buildMerkleTree, map_eq_none_iff, eq_none_iff_forall_ne_some]
  intro rows hrows
  have := le_of_buildRows (by decide) hrows
  omega

end Chratos
