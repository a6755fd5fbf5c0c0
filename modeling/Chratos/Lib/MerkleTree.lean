import Mathlib.Algebra.GroupWithZero.Nat
import Mathlib.Data.Nat.Log

/-!
# MerkleTree — binary hash trees in which a missing right half repeats the left one

The root of a list of leaves, over any type of hashes with a pairing function. At height `d` a list
of at most `2 ^ d` leaves is cut after the first `2 ^ (d - 1)`; if nothing is left for the right half
the left half stands on both sides. So a list and the list with its last half written out twice have
one root, and the way to tell them apart is to look for equal complete siblings (`twins`).

Pairing is never assumed to be injective, only to be so on the nodes of the two trees at hand
(`Apart`).
-/

namespace MerkleTree

open List

variable {H : Type} (pair : H → H → H)

/-- Different nodes, one of each list, have different hashes. -/
def Apart (nodes nodes' : List (H × H)) : Prop :=
  ∀ p ∈ nodes, ∀ q ∈ nodes', pair p.1 p.2 = pair q.1 q.2 → p = q

instance [DecidableEq H] (nodes nodes' : List (H × H)) : Decidable (Apart pair nodes nodes') :=
  inferInstanceAs (Decidable (∀ p ∈ nodes, ∀ q ∈ nodes', pair p.1 p.2 = pair q.1 q.2 → p = q))

variable {l l' : List (H × H)} {e : Nat} {z : H}

variable {pair} in
theorem Apart.mono {m m' : List (H × H)} (h : Apart pair m m') (hl : l ⊆ m) (hl' : l' ⊆ m') :
    Apart pair l l' :=
  fun p hp q hq => h p (hl hp) q (hl' hq)

variable {pair} in
theorem Apart.symm (h : Apart pair l l') : Apart pair l' l :=
  fun p hp q hq heq => (h q hq p hp heq.symm).symm

variable [Inhabited H]

/-- The root at height `d` of at most `2 ^ d` leaves. -/
def root : Nat → List H → H
  | 0, leaves => leaves.headD default
  | d + 1, leaves =>
    if leaves.length ≤ 2 ^ d then pair (root d leaves) (root d leaves)
    else pair (root d (leaves.take (2 ^ d))) (root d (leaves.drop (2 ^ d)))

/-- The pairs that are hashed on the way to the root. -/
def nodes : Nat → List H → List (H × H)
  | 0, _ => []
  | d + 1, leaves =>
    if leaves.length ≤ 2 ^ d then (root pair d leaves, root pair d leaves) :: nodes d leaves
    else (root pair d (leaves.take (2 ^ d)), root pair d (leaves.drop (2 ^ d))) ::
      (nodes d (leaves.take (2 ^ d)) ++ nodes d (leaves.drop (2 ^ d)))

/-- Two complete siblings are equal. -/
def twins [BEq H] : Nat → List H → Bool
  | 0, _ => false
  | d + 1, leaves =>
    if leaves.length ≤ 2 ^ d then twins d leaves
    else twins d (leaves.take (2 ^ d)) || twins d (leaves.drop (2 ^ d)) ||
      (leaves.length == 2 ^ (d + 1) &&
        root pair d (leaves.take (2 ^ d)) == root pair d (leaves.drop (2 ^ d)))

variable {pair}

/-! ## Halves -/

variable {d : Nat} {leaves left right ys xs : List H}

/-- The second half: what is behind the first `2 ^ d` leaves, or the first half again. -/
def rightHalf (d : Nat) (leaves : List H) : List H :=
  if leaves.length ≤ 2 ^ d then leaves else leaves.drop (2 ^ d)

section

omit [Inhabited H]

theorem rightHalf_lt (h : 2 ^ d < leaves.length) : rightHalf d leaves = leaves.drop (2 ^ d) :=
  if_neg (not_le.mpr h)

theorem getLast?_rightHalf (d : Nat) (leaves : List H) :
    (rightHalf d leaves).getLast? = leaves.getLast? := by
  unfold rightHalf
  split_ifs with h
  · rfl
  · rw [getLast?_drop, if_neg (by omega)]

theorem rightHalf_ne_nil (h : leaves ≠ []) : rightHalf d leaves ≠ [] := by
  rwa [Ne, ← getLast?_eq_none_iff, getLast?_rightHalf, getLast?_eq_none_iff]

theorem take_ne_nil (h : leaves ≠ []) : leaves.take (2 ^ d) ≠ [] := fun hnil =>
  (take_eq_nil_iff.mp hnil).elim (Nat.two_pow_pos d).ne' h

theorem length_rightHalf_le (h : leaves.length ≤ 2 ^ (d + 1)) :
    (rightHalf d leaves).length ≤ 2 ^ d := by
  unfold rightHalf
  split_ifs with hle
  · exact hle
  · rw [length_drop]
    omega

/-- Complete left half, some right half. -/
theorem halves_append (hleft : left.length = 2 ^ d) (hright : right ≠ []) :
    (left ++ right).take (2 ^ d) = left ∧ rightHalf d (left ++ right) = right := by
  have hpos := length_pos_iff.mpr hright
  rw [rightHalf_lt (by rw [length_append]; omega), ← hleft]
  exact ⟨take_left, drop_left⟩

end

theorem root_succ (d : Nat) (leaves : List H) : root pair (d + 1) leaves =
    pair (root pair d (leaves.take (2 ^ d))) (root pair d (rightHalf d leaves)) := by
  rw [root, rightHalf]
  split_ifs with h
  · rw [take_of_length_le h]
  · rfl

theorem root_succ_le (h : leaves.length ≤ 2 ^ d) :
    root pair (d + 1) leaves = pair (root pair d leaves) (root pair d leaves) := if_pos h

theorem root_append (hleft : left.length = 2 ^ d) (hright : right ≠ []) :
    root pair (d + 1) (left ++ right) = pair (root pair d left) (root pair d right) := by
  obtain ⟨htake, hhalf⟩ := halves_append hleft hright
  rw [root_succ, htake, hhalf]

variable (pair) in
/-- The hash on top of a tree is the hash of one of its nodes, and both halves have their nodes
among the nodes of the tree. -/
theorem nodes_succ (d : Nat) (leaves : List H) :
    (root pair d (leaves.take (2 ^ d)), root pair d (rightHalf d leaves)) ∈ nodes pair (d + 1) leaves ∧
      nodes pair d (leaves.take (2 ^ d)) ⊆ nodes pair (d + 1) leaves ∧
      nodes pair d (rightHalf d leaves) ⊆ nodes pair (d + 1) leaves := by
  rw [nodes, rightHalf]
  split_ifs with h
  · rw [take_of_length_le h]
    exact ⟨mem_cons_self, subset_cons_self _ _, subset_cons_self _ _⟩
  · exact ⟨mem_cons_self, fun _ hp => mem_cons_of_mem _ (mem_append_left _ hp),
      fun _ hp => mem_cons_of_mem _ (mem_append_right _ hp)⟩

theorem twins_succ [BEq H] (d : Nat) (leaves : List H) : twins pair (d + 1) leaves =
    (twins pair d (leaves.take (2 ^ d)) || twins pair d (rightHalf d leaves) ||
      (leaves.length == 2 ^ (d + 1) &&
        root pair d (leaves.take (2 ^ d)) == root pair d (rightHalf d leaves))) := by
  rw [twins, rightHalf]
  split_ifs with h
  · have hpos := Nat.two_pow_pos d
    have hlow : (leaves.length == 2 ^ (d + 1)) = false := beq_eq_false_iff_ne.mpr (by omega)
    rw [take_of_length_le h, hlow, Bool.or_self, Bool.false_and, Bool.or_false]
  · rfl

theorem twins_append [BEq H] (hleft : left.length = 2 ^ d) (hright : right.length = 2 ^ d) :
    twins pair (d + 1) (left ++ right) =
      (twins pair d left || twins pair d right || root pair d left == root pair d right) := by
  have hpos := Nat.two_pow_pos d
  have hlen : (left ++ right).length = 2 ^ (d + 1) := by rw [length_append]; omega
  have hne : right ≠ [] := ne_nil_of_length_pos (hright ▸ hpos)
  obtain ⟨htake, hhalf⟩ := halves_append hleft hne
  rw [twins_succ, htake, hhalf, hlen, beq_self_eq_true, Bool.true_and]

/-- A taller tree over the same leaves has no other complete siblings. -/
theorem twins_of_le [BEq H] (h : leaves.length ≤ 2 ^ d) (hde : d ≤ e) :
    twins pair e leaves = twins pair d leaves := by
  induction e, hde using Nat.le_induction with
  | base => rfl
  | succ e hde ih => rw [twins, if_pos (h.trans (Nat.pow_le_pow_right (by decide) hde)), ih]

/-- Nor does an incomplete right half have a sibling to be equal to. -/
theorem twins_append_of_lt [BEq H] (hleft : left.length = 2 ^ d) (hright : right.length < 2 ^ d) :
    twins pair (d + 1) (left ++ right) = (twins pair d left || twins pair d right) := by
  by_cases hnil : right = []
  · have hempty : twins pair d ([] : List H) = false := twins_of_le (Nat.zero_le _) (Nat.zero_le d)
    rw [hnil, append_nil, hempty, Bool.or_false, twins_of_le hleft.le (Nat.le_succ d)]
  · have hlow : ((left ++ right).length == 2 ^ (d + 1)) = false := by
      rw [beq_eq_false_iff_ne, length_append]
      omega
    obtain ⟨htake, hhalf⟩ := halves_append hleft hnil
    rw [twins_succ, htake, hhalf, hlow, Bool.false_and, Bool.or_false]

/-- Below equal roots the roots of the halves are equal. -/
theorem halves_of_root_eq (hapart : Apart pair (nodes pair (d + 1) xs) (nodes pair (e + 1) ys))
    (heq : root pair (d + 1) xs = root pair (e + 1) ys) :
    (Apart pair (nodes pair d (xs.take (2 ^ d))) (nodes pair e (ys.take (2 ^ e))) ∧
        root pair d (xs.take (2 ^ d)) = root pair e (ys.take (2 ^ e))) ∧
      Apart pair (nodes pair d (rightHalf d xs)) (nodes pair e (rightHalf e ys)) ∧
        root pair d (rightHalf d xs) = root pair e (rightHalf e ys) := by
  obtain ⟨hp, hl, hr⟩ := nodes_succ pair d xs
  obtain ⟨hq, hl', hr'⟩ := nodes_succ pair e ys
  rw [root_succ, root_succ] at heq
  obtain ⟨hleft, hright⟩ := Prod.ext_iff.mp (hapart _ hp _ hq heq)
  exact ⟨⟨hapart.mono hl hl', hleft⟩, hapart.mono hr hr', hright⟩

theorem twins_halves [BEq H] (h : twins pair (d + 1) leaves = false) :
    twins pair d (leaves.take (2 ^ d)) = false ∧ twins pair d (rightHalf d leaves) = false := by
  rw [twins_succ, Bool.or_eq_false_iff, Bool.or_eq_false_iff] at h
  exact h.1

/-- Without twins, a list that reaches the second half has different halves. -/
theorem take_ne_drop_of_twins [BEq H] [LawfulBEq H] (hlt : 2 ^ d < ys.length)
    (hle : ys.length ≤ 2 ^ (d + 1)) (h : twins pair (d + 1) ys = false) :
    ys.take (2 ^ d) ≠ ys.drop (2 ^ d) := by
  intro heq
  have hlen : ys.length = 2 ^ (d + 1) := by
    have := congrArg List.length heq
    rw [length_take, length_drop] at this
    omega
  rw [twins, if_neg (by omega), ← heq, hlen, beq_self_eq_true, beq_self_eq_true, Bool.and_self,
    Bool.or_true] at h
  cases h

/-! ## One height -/

/-- **Lists without twins** are told apart by their roots at any one height. -/
theorem root_inj [BEq H] [LawfulBEq H] (hx0 : xs ≠ []) (hy0 : ys ≠ []) (hx : xs.length ≤ 2 ^ d)
    (hy : ys.length ≤ 2 ^ d) (htx : twins pair d xs = false) (hty : twins pair d ys = false)
    (hapart : Apart pair (nodes pair d xs) (nodes pair d ys)) (heq : root pair d xs = root pair d ys) :
    xs = ys := by
  induction d generalizing xs ys with
  | zero =>
    obtain ⟨x, rfl⟩ := length_eq_one_iff.mp (show xs.length = 1 from
      le_antisymm hx (length_pos_iff.mpr hx0))
    obtain ⟨y, rfl⟩ := length_eq_one_iff.mp (show ys.length = 1 from
      le_antisymm hy (length_pos_iff.mpr hy0))
    exact congrArg (fun z => [z]) heq
  | succ d ih =>
    obtain ⟨⟨hal, hl⟩, har, hr⟩ := halves_of_root_eq hapart heq
    obtain ⟨htxl, htxr⟩ := twins_halves htx
    obtain ⟨htyl, htyr⟩ := twins_halves hty
    have hleft := ih (take_ne_nil hx0) (take_ne_nil hy0) (length_take_le _ _)
      (length_take_le _ _) htxl htyl hal hl
    have hright := ih (rightHalf_ne_nil hx0) (rightHalf_ne_nil hy0) (length_rightHalf_le hx)
      (length_rightHalf_le hy) htxr htyr har hr
    rcases lt_or_ge (2 ^ d) xs.length with hxd | hxd <;>
      rcases lt_or_ge (2 ^ d) ys.length with hyd | hyd
    · rw [rightHalf_lt hxd, rightHalf_lt hyd] at hright
      rw [← take_append_drop (2 ^ d) xs, ← take_append_drop (2 ^ d) ys, hleft, hright]
    · -- both halves of the longer list would be the shorter one
      rw [take_of_length_le hyd] at hleft
      rw [rightHalf_lt hxd, rightHalf, if_pos hyd] at hright
      exact absurd (hleft.trans hright.symm) (take_ne_drop_of_twins hxd hx htx)
    · rw [take_of_length_le hxd] at hleft
      rw [rightHalf_lt hyd, rightHalf, if_pos hxd] at hright
      exact absurd (hleft.symm.trans hright) (take_ne_drop_of_twins hyd hy hty)
    · rwa [take_of_length_le hxd, take_of_length_le hyd] at hleft

/-- **Lists of one length** are told apart by their roots. -/
theorem root_inj_of_length (hlen : xs.length = ys.length) (hx : xs.length ≤ 2 ^ d)
    (hapart : Apart pair (nodes pair d xs) (nodes pair d ys)) (heq : root pair d xs = root pair d ys) :
    xs = ys := by
  induction d generalizing xs ys with
  | zero =>
    match xs, ys, hlen, hx, heq with
    | [], [], _, _, _ => rfl
    | [x], [y], _, _, heq => exact congrArg (fun z => [z]) heq
  | succ d ih =>
    obtain ⟨⟨hal, hl⟩, har, hr⟩ := halves_of_root_eq hapart heq
    have hleft := ih (by rw [length_take, length_take, hlen]) (length_take_le _ _) hal hl
    rcases lt_or_ge (2 ^ d) xs.length with hxd | hxd
    · rw [rightHalf_lt hxd, rightHalf_lt (hlen ▸ hxd)] at hr har
      rw [← take_append_drop (2 ^ d) xs, ← take_append_drop (2 ^ d) ys, hleft,
        ih (by rw [length_drop, length_drop, hlen]) (by rw [length_drop]; omega) har hr]
    · rwa [take_of_length_le hxd, take_of_length_le (hlen ▸ hxd)] at hleft

/-! ## One more leaf -/

/-- A root that is the root of one repeated leaf: the last leaf is that leaf. -/
theorem getLast_of_root_singleton (hx0 : xs ≠ []) (hx : xs.length ≤ 2 ^ d)
    (hapart : Apart pair (nodes pair d xs) (nodes pair d [z]))
    (heq : root pair d xs = root pair d [z]) : xs.getLast? = some z := by
  induction d generalizing xs with
  | zero =>
    obtain ⟨x, rfl⟩ := length_eq_one_iff.mp (show xs.length = 1 from
      le_antisymm hx (length_pos_iff.mpr hx0))
    exact congrArg some heq
  | succ d ih =>
    have hz : rightHalf d [z] = [z] := if_pos (Nat.two_pow_pos d)
    obtain ⟨-, har, hr⟩ := halves_of_root_eq hapart heq
    rw [hz] at har hr
    rw [← getLast?_rightHalf d xs]
    exact ih (rightHalf_ne_nil hx0) (length_rightHalf_le hx) har hr

/-- **One more leaf** at the same height leaves the root as it is only if it repeats the last. -/
theorem getLast_of_root_concat (hx0 : xs ≠ []) (hx : xs.length < 2 ^ d)
    (hapart : Apart pair (nodes pair d xs) (nodes pair d (xs ++ [z])))
    (heq : root pair d xs = root pair d (xs ++ [z])) : xs.getLast? = some z := by
  induction d generalizing xs with
  | zero => exact absurd (length_eq_zero_iff.mp (Nat.lt_one_iff.mp hx)) hx0
  | succ d ih =>
    obtain ⟨-, har, hr⟩ := halves_of_root_eq hapart heq
    have hlen : (xs ++ [z]).length = xs.length + 1 := length_append
    rw [← getLast?_rightHalf d xs]
    by_cases hfull : xs.length = 2 ^ d
    · -- The list fills the left half: its root stands against the new leaf's on the right.
      have hright : rightHalf d (xs ++ [z]) = [z] := by
        rw [rightHalf_lt (by omega), ← hfull, drop_left]
      rw [hright] at har hr
      exact getLast_of_root_singleton (rightHalf_ne_nil hx0) (length_rightHalf_le hx.le) har hr
    · have hright : rightHalf d (xs ++ [z]) = rightHalf d xs ++ [z] := by
        unfold rightHalf
        split_ifs <;> first | omega | rfl | exact drop_append_of_le_length (by omega)
      have hdrop : (rightHalf d (xs ++ [z])).length ≤ 2 ^ d := length_rightHalf_le (by omega)
      rw [hright] at har hr hdrop
      exact ih (rightHalf_ne_nil hx0) (by rw [length_append] at hdrop; exact hdrop) har hr

/-! ## Two heights -/

/-- **Trees of different heights** with one root: the first leaf of the lower tree is the hash of a
node of the higher one. -/
theorem head_of_root_eq {k : Nat} (hapart : Apart pair (nodes pair d xs) (nodes pair (d + (k + 1)) ys))
    (heq : root pair d xs = root pair (d + (k + 1)) ys) :
    ∃ q ∈ nodes pair (d + (k + 1)) ys, xs.headD default = pair q.1 q.2 := by
  induction d generalizing xs ys with
  | zero =>
    rw [zero_add] at heq ⊢
    exact ⟨_, (nodes_succ pair k ys).1, heq.trans (root_succ k ys)⟩
  | succ d ih =>
    rw [show d + 1 + (k + 1) = d + (k + 1) + 1 by omega] at hapart heq ⊢
    obtain ⟨⟨hal, hl⟩, -⟩ := halves_of_root_eq hapart heq
    obtain ⟨r, hr, hhead⟩ := ih hal hl
    refine ⟨r, (nodes_succ pair (d + (k + 1)) ys).2.1 hr, ?_⟩
    rw [← hhead]
    cases xs with
    | nil => rw [take_nil]
    | cons x xs =>
      obtain ⟨n, hn⟩ := Nat.exists_eq_succ_of_ne_zero (Nat.two_pow_pos d).ne'
      rw [hn, take_succ_cons, headD_cons, headD_cons]

section Heights

variable {xs ys : List H}
  (hapart : Apart pair (nodes pair (Nat.clog 2 xs.length) xs) (nodes pair (Nat.clog 2 ys.length) ys))
  (hheadx : ∀ q ∈ nodes pair (Nat.clog 2 ys.length) ys, xs.headD default ≠ pair q.1 q.2)
  (heq : root pair (Nat.clog 2 xs.length) xs = root pair (Nat.clog 2 ys.length) ys)
include hapart hheadx heq

/-- The first leaf of a lower tree would be a node of the higher one. -/
theorem clog_le_of_root_eq : Nat.clog 2 ys.length ≤ Nat.clog 2 xs.length := by
  by_contra hlt
  obtain ⟨k, hk⟩ := Nat.exists_eq_add_of_lt (Nat.lt_of_not_le hlt)
  rw [hk, add_assoc] at hapart hheadx heq
  obtain ⟨q, hq, hnode⟩ := head_of_root_eq hapart heq
  exact hheadx q hq hnode

/-- **Each tree at its own height**: without twins, and with first leaves that are no nodes of the
other. -/
theorem root_inj_of_heads [BEq H] [LawfulBEq H] (hx0 : xs ≠ []) (hy0 : ys ≠ [])
    (hheady : ∀ q ∈ nodes pair (Nat.clog 2 xs.length) xs, ys.headD default ≠ pair q.1 q.2)
    (htx : twins pair (Nat.clog 2 xs.length) xs = false)
    (hty : twins pair (Nat.clog 2 ys.length) ys = false) : xs = ys := by
  have hclog : Nat.clog 2 ys.length = Nat.clog 2 xs.length :=
    le_antisymm (clog_le_of_root_eq hapart hheadx heq)
      (clog_le_of_root_eq hapart.symm hheady heq.symm)
  have hfits := Nat.le_pow_clog (by decide : 1 < 2) ys.length
  rw [hclog] at heq hty hapart hfits
  exact root_inj hx0 hy0 (Nat.le_pow_clog (by decide) _) hfits htx hty hapart heq

end Heights

end MerkleTree
