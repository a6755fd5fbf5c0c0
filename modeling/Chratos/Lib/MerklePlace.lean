import Chratos.Lib.MerkleTree

/-!
# MerklePlace — the nodes of a hash tree by height and position

`MerkleTree.root` cuts a list from the top. Here the same tree is seen by rows: the `p`-th node at
height `d` stands over the leaves from `p * 2 ^ d` on, `2 ^ d` of them or as many as there are
(`slice`).
-/

namespace MerkleTree

open List

variable {H : Type} {pair : H → H → H} {leaves : List H}

/-! ## Slices -/

variable (leaves) in
/-- The leaves below the `p`-th node at height `d`. -/
def slice (d p : Nat) : List H := (leaves.drop (p * 2 ^ d)).take (2 ^ d)

theorem mul_two_pow_succ (p d : Nat) : p * 2 ^ (d + 1) = 2 * p * 2 ^ d := by
  rw [pow_succ, mul_comm (2 ^ d) 2, ← mul_assoc, mul_comm p 2]

theorem length_slice (d p : Nat) :
    (slice leaves d p).length = min (2 ^ d) (leaves.length - p * 2 ^ d) := by
  rw [slice, length_take, length_drop]

variable {p d : Nat}

theorem slice_ne_nil (h : p * 2 ^ d < leaves.length) : slice leaves d p ≠ [] := by
  have hpos := Nat.two_pow_pos d
  apply ne_nil_of_length_pos
  rw [length_slice]
  omega

theorem slice_eq_nil (h : leaves.length ≤ p * 2 ^ d) : slice leaves d p = [] := by
  rw [slice, drop_of_length_le h, take_nil]

theorem slice_zero (h : leaves.length ≤ 2 ^ d) : slice leaves d 0 = leaves := by
  rw [slice, zero_mul, drop_zero, take_of_length_le h]

/-- The two halves below a node, the right one empty if the child is missing. -/
theorem slice_succ (d p : Nat) :
    slice leaves (d + 1) p = slice leaves d (2 * p) ++ slice leaves d (2 * p + 1) := by
  rw [slice, slice, slice, mul_two_pow_succ, Nat.two_pow_succ, take_add, drop_drop,
    Nat.add_mul (2 * p) 1, one_mul]

theorem take_slice (d p : Nat) : (slice leaves (d + 1) p).take (2 ^ d) = slice leaves d (2 * p) := by
  rw [slice, slice, take_take, mul_two_pow_succ,
    Nat.min_eq_left (Nat.pow_le_pow_right (by decide) (by omega))]

/-- The right half is that of the right child, if there is one. -/
theorem rightHalf_slice (d p : Nat) : rightHalf d (slice leaves (d + 1) p) =
    if (2 * p + 1) * 2 ^ d < leaves.length then slice leaves d
      (2 * p + 1) else slice leaves d (2 * p) := by
  have hmul : (2 * p + 1) * 2 ^ d = 2 * p * 2 ^ d + 2 ^ d := Nat.succ_mul _ _
  have hpos := Nat.two_pow_pos d
  split_ifs with h
  · have hhalf : 2 ^ (d + 1) - 2 ^ d = 2 ^ d := by omega
    rw [rightHalf_lt (by rw [length_slice, mul_two_pow_succ]; omega), slice, slice, drop_take,
      drop_drop, mul_two_pow_succ, hmul, hhalf]
  · rw [slice_succ, slice_eq_nil (Nat.le_of_not_lt h), append_nil, rightHalf,
      if_pos (by rw [length_slice]; omega)]

/-! ## Nodes -/

variable [Inhabited H]

variable (pair leaves) in
/-- The `p`-th node at height `d`. The right child of the last node of a row may be missing. -/
def node : Nat → Nat → H
  | 0, p => leaves.getD p default
  | d + 1, p =>
    pair (node d (2 * p))
      (if (2 * p + 1) * 2 ^ d < leaves.length then node d (2 * p + 1) else node d (2 * p))

/-- A node is the root of the leaves below it. -/
theorem node_eq_root (h : p * 2 ^ d < leaves.length) :
    node pair leaves d p = root pair d (slice leaves d p) := by
  induction d generalizing p with
  | zero =>
    have hdrop : leaves.drop p ≠ [] := ne_nil_of_length_pos (by rw [length_drop]; omega)
    rw [node, root, slice, Nat.pow_zero, mul_one, getD_eq_getElem?_getD, headD_eq_head?_getD]
    cases hd : leaves.drop p with
    | nil => exact absurd hd hdrop
    | cons a rest =>
      rw [take_succ_cons, head?_cons, ← head?_drop, hd, head?_cons]
  | succ d ih =>
    rw [mul_two_pow_succ] at h
    rw [node, ih h, root_succ, take_slice, rightHalf_slice]
    split_ifs with hright
    · rw [ih hright]
    · rfl

theorem root_eq_node (hne : leaves ≠ []) (h : leaves.length ≤ 2 ^ d) :
    root pair d leaves = node pair leaves d 0 := by
  have hpos := length_pos_iff.mpr hne
  rw [node_eq_root (by omega), slice_zero h]

/-! ## Siblings -/

variable (leaves) in
/-- The place beside a node in its row; a node without a sibling stands in for it. -/
def sibling (d p : Nat) : Nat :=
  if p % 2 = 1 then p - 1 else if (p + 1) * 2 ^ d < leaves.length then p + 1 else p

/-- A node from its child and the child's sibling. -/
theorem node_succ_div (d : Nat) (h : p * 2 ^ d < leaves.length) : node pair leaves (d + 1) (p / 2) =
      if p % 2 = 1 then pair (node pair leaves d (sibling leaves d p)) (node pair leaves d p)
      else pair (node pair leaves d p) (node pair leaves d (sibling leaves d p)) := by
  rw [node, sibling]
  rcases Nat.mod_two_eq_zero_or_one p with hp | hp
  · have hdiv : 2 * (p / 2) = p := by omega
    rw [hdiv, hp, if_neg Nat.zero_ne_one, if_neg Nat.zero_ne_one]
    by_cases hright : (p + 1) * 2 ^ d < leaves.length
    · rw [if_pos hright, if_pos hright]
    · rw [if_neg hright, if_neg hright]
  · have hdiv : 2 * (p / 2) = p - 1 := by omega
    have hback : p - 1 + 1 = p := by omega
    rw [hdiv, hback, if_pos h, if_pos hp, if_pos hp]

/-! ## Twins by their place -/

variable (pair leaves) in
/-- The two complete nodes at height `k` that are the children of the `q`-th node above are equal. -/
def TwinAt (k q : Nat) : Prop :=
  (2 * q + 2) * 2 ^ k ≤ leaves.length ∧ node pair leaves k (2 * q) = node pair leaves k (2 * q + 1)

theorem exists_twinAt [BEq H] [LawfulBEq H] (h : p * 2 ^ d < leaves.length)
    (htwins : twins pair d (slice leaves d p) = true) : ∃ k q, TwinAt pair leaves k q := by
  induction d generalizing p with
  | zero => cases htwins
  | succ d ih =>
    rw [mul_two_pow_succ] at h
    rw [twins_succ, take_slice, rightHalf_slice, Bool.or_eq_true, Bool.or_eq_true, Bool.and_eq_true,
      beq_iff_eq, beq_iff_eq, length_slice, mul_two_pow_succ] at htwins
    rcases htwins with (hl | hr) | ⟨hlen, heq⟩
    · exact ih h hl
    · split_ifs at hr with hright
      · exact ih hright hr
      · exact ih h hr
    · have hpos := Nat.two_pow_pos d
      have hfull : (2 * p + 2) * 2 ^ d ≤ leaves.length := by
        rw [Nat.add_mul (2 * p)]
        omega
      have hright : (2 * p + 1) * 2 ^ d < leaves.length := by
        rw [Nat.add_mul (2 * p)]
        omega
      rw [if_pos hright] at heq
      exact ⟨d, p, hfull, by rw [node_eq_root h, node_eq_root hright, heq]⟩

/-- Twins below a node are twins below the next higher one. -/
theorem twins_slice_succ [BEq H] (h : twins pair d (slice leaves d p) = true) :
    twins pair (d + 1) (slice leaves (d + 1) (p / 2)) = true := by
  have hside : p = 2 * (p / 2) ∨ p = 2 * (p / 2) + 1 := by omega
  generalize p / 2 = q at hside ⊢
  rw [twins_succ, take_slice, rightHalf_slice]
  rcases hside with rfl | rfl
  · rw [h, Bool.true_or, Bool.true_or]
  · split_ifs with hright
    · rw [h, Bool.or_true, Bool.true_or]
    · -- nothing on the right, and no twins in it
      rw [slice_eq_nil (Nat.le_of_not_lt hright), twins_of_le (Nat.zero_le _) (Nat.zero_le d)] at h
      cases h

/-- Twins show in every tree above them. -/
theorem TwinAt.twins_slice [BEq H] [LawfulBEq H] {k q : Nat} (h : TwinAt pair leaves k q) (j : Nat) :
    twins pair (k + 1 + j) (slice leaves (k + 1 + j) (q / 2 ^ j)) = true := by
  obtain ⟨hfull, heq⟩ := h
  induction j with
  | zero =>
    have hpos := Nat.two_pow_pos k
    have hright : (2 * q + 1) * 2 ^ k < leaves.length := by
      rw [Nat.add_mul (2 * q)] at hfull ⊢
      omega
    have hleft : 2 * q * 2 ^ k < leaves.length := by
      rw [Nat.add_mul (2 * q)] at hfull
      omega
    have hlen : (slice leaves (k + 1) q).length = 2 ^ (k + 1) := by
      rw [Nat.add_mul (2 * q)] at hfull
      rw [length_slice, mul_two_pow_succ]
      omega
    rw [pow_zero, Nat.div_one, add_zero, twins_succ, take_slice, rightHalf_slice, if_pos hright, hlen,
      ← node_eq_root hleft, ← node_eq_root hright, heq, beq_self_eq_true, beq_self_eq_true,
        Bool.and_self,
      Bool.or_true]
  | succ j ih =>
    rw [pow_succ, ← Nat.div_div_eq_div_mul]
    exact twins_slice_succ ih

/-- **Twins by their place**: two complete siblings are equal. -/
theorem twins_iff [BEq H] [LawfulBEq H] (hne : leaves ≠ []) (h : leaves.length ≤ 2 ^ d) :
    twins pair d leaves = true ↔ ∃ k q, TwinAt pair leaves k q := by
  constructor
  · intro htwins
    rw [← slice_zero h] at htwins
    exact exists_twinAt (by rw [zero_mul]; exact length_pos_iff.mpr hne) htwins
  · rintro ⟨k, q, htwin⟩
    have hle : (2 * q + 2) * 2 ^ k ≤ 2 ^ d := htwin.1.trans h
    have hq : (q + 1) * 2 ^ (k + 1) ≤ 2 ^ d := by rwa [mul_two_pow_succ, Nat.mul_add]
    have hkd : k + 1 ≤ d := by
      apply (Nat.pow_le_pow_iff_right (by decide : 1 < 2)).mp
      exact (Nat.le_mul_of_pos_left _ (Nat.succ_pos q)).trans hq
    obtain ⟨j, rfl⟩ := Nat.exists_eq_add_of_le hkd
    have hzero : q / 2 ^ j = 0 := by
      apply Nat.div_eq_of_lt
      rw [pow_add 2 (k + 1) j, mul_comm (2 ^ (k + 1))] at hq
      exact Nat.le_of_mul_le_mul_right hq (Nat.two_pow_pos _)
    have htop := htwin.twins_slice j
    rw [hzero, slice_zero h] at htop
    exact htop

/-! ## The pairs that are hashed, by their place -/

/-- What is hashed below a node is hashed below the next higher one. -/
theorem nodes_slice_succ (h : p * 2 ^ d < leaves.length) :
    nodes pair d (slice leaves d p) ⊆ nodes pair (d + 1) (slice leaves (d + 1) (p / 2)) := by
  have hside : p = 2 * (p / 2) ∨ p = 2 * (p / 2) + 1 := by omega
  generalize p / 2 = q at hside ⊢
  obtain ⟨-, hl, hr⟩ := nodes_succ pair d (slice leaves (d + 1) q)
  rw [take_slice] at hl
  rw [rightHalf_slice] at hr
  rcases hside with rfl | rfl
  · exact hl
  · rwa [if_pos h] at hr

theorem nodes_slice_subset {D : Nat} (h : p * 2 ^ d < leaves.length) (hd : d ≤ D)
    (hfits : leaves.length ≤ 2 ^ D) : nodes pair d (slice leaves d p) ⊆ nodes pair D leaves := by
  obtain ⟨j, rfl⟩ := Nat.exists_eq_add_of_le hd
  have hup : ∀ j, nodes pair d (slice leaves d p) ⊆
      nodes pair (d + j) (slice leaves (d + j) (p / 2 ^ j)) := by
    intro j
    induction j with
    | zero => rw [pow_zero, Nat.div_one]; exact List.Subset.refl _
    | succ j ih =>
      refine List.Subset.trans ih ?_
      rw [pow_succ, ← Nat.div_div_eq_div_mul]
      refine nodes_slice_succ (lt_of_le_of_lt ?_ h)
      rw [pow_add, mul_comm (2 ^ d), ← mul_assoc]
      exact Nat.mul_le_mul_right _ (Nat.div_mul_le_self p _)
  have hzero : p / 2 ^ j = 0 := by
    rw [pow_add, mul_comm] at hfits
    exact Nat.div_eq_of_lt (Nat.lt_of_mul_lt_mul_right (lt_of_lt_of_le h hfits))
  have htop := hup j
  rwa [hzero, slice_zero hfits] at htop

/-- **The pair that is hashed for a node.** -/
theorem children_mem_nodes {D : Nat} (h : p * 2 ^ (d + 1) < leaves.length) (hd : d + 1 ≤ D)
    (hfits : leaves.length ≤ 2 ^ D) :
    (node pair leaves d (2 * p), if (2 * p + 1) * 2 ^ d < leaves.length
      then node pair leaves d (2 * p + 1) else node pair leaves d (2 * p)) ∈ nodes pair D leaves := by
  have hmem := nodes_slice_subset h hd hfits (nodes_succ pair d (slice leaves (d + 1) p)).1
  rw [mul_two_pow_succ] at h
  rw [take_slice, rightHalf_slice, ← node_eq_root h] at hmem
  split_ifs at hmem ⊢ with hright
  · rwa [← node_eq_root hright] at hmem
  · rwa [← node_eq_root h] at hmem

/-! ## Different leaves -/

/-- Different leaves have no twins above them. -/
theorem twins_eq_false_of_nodup [BEq H] [LawfulBEq H] {xs : List H} (hnodup : xs.Nodup)
    (hfits : xs.length ≤ 2 ^ d) (hapart : Apart pair (nodes pair d xs) (nodes pair d xs)) :
    twins pair d xs = false := by
  induction d generalizing xs with
  | zero => rfl
  | succ d ih =>
    obtain ⟨-, hl, hr⟩ := nodes_succ pair d xs
    have hnodupr : (rightHalf d xs).Nodup := by
      unfold rightHalf
      split_ifs
      · exact hnodup
      · exact hnodup.sublist (drop_sublist _ _)
    rw [twins_succ, ih (hnodup.sublist (take_sublist _ _)) (length_take_le _ _) (hapart.mono hl hl),
      ih hnodupr (length_rightHalf_le hfits) (hapart.mono hr hr), Bool.or_false, Bool.false_or,
      Bool.and_eq_false_imp]
    intro hfull
    refine beq_eq_false_iff_ne.mpr fun heq => ?_
    -- equal roots of complete halves: the halves are equal, but have no leaf in common
    have hfull' : xs.length = 2 ^ (d + 1) := beq_iff_eq.mp hfull
    have hpos := Nat.two_pow_pos d
    rw [rightHalf_lt (by omega)] at hr heq
    have hdrop : (xs.drop (2 ^ d)).length = xs.length - 2 ^ d := length_drop
    have hsame := root_inj_of_length (by rw [length_take]; omega) (length_take_le _ _)
      (hapart.mono hl hr) heq
    obtain ⟨x, hx⟩ := exists_mem_of_length_pos (show 0 < (xs.drop (2 ^ d)).length by omega)
    rw [← take_append_drop (2 ^ d) xs] at hnodup
    exact (nodup_append.mp hnodup).2.2 x (hsame ▸ hx) x hx rfl

/-- Over different leaves, **a node is not equal to its sibling**. -/
theorem node_ne_of_nodup [BEq H] [LawfulBEq H] {D : Nat} (hnodup : leaves.Nodup)
    (hfits : leaves.length ≤ 2 ^ D) (hd : d + 1 ≤ D)
    (hapart : Apart pair (nodes pair D leaves) (nodes pair D leaves))
    (hright : (2 * p + 1) * 2 ^ d < leaves.length) :
    node pair leaves d (2 * p) ≠ node pair leaves d (2 * p + 1) := by
  have hleft : 2 * p * 2 ^ d < leaves.length :=
    lt_of_le_of_lt (Nat.mul_le_mul_right _ (Nat.le_succ _)) hright
  have hl : nodes pair d _ ⊆ nodes pair D leaves := nodes_slice_subset hleft (by omega) hfits
  have hr : nodes pair d _ ⊆ nodes pair D leaves := nodes_slice_subset hright (by omega) hfits
  have hslice : (slice leaves (d + 1) p).Nodup :=
    (hnodup.sublist (drop_sublist _ _)).sublist (take_sublist _ _)
  rw [slice_succ] at hslice
  obtain ⟨hnodupl, hnodupr, hdisjoint⟩ := nodup_append.mp hslice
  rw [node_eq_root hleft, node_eq_root hright]
  intro heq
  have hsame := root_inj (slice_ne_nil hleft) (slice_ne_nil hright) (by rw [length_slice]; omega)
    (by rw [length_slice]; omega)
    (twins_eq_false_of_nodup hnodupl (by rw [length_slice]; omega) (hapart.mono hl hl))
    (twins_eq_false_of_nodup hnodupr (by rw [length_slice]; omega) (hapart.mono hr hr))
    (hapart.mono hl hr) heq
  obtain ⟨x, hx⟩ := exists_mem_of_ne_nil _ (slice_ne_nil hright)
  exact hdisjoint x (hsame ▸ hx) x hx rfl

end MerkleTree
