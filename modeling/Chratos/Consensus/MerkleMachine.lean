import Chratos.Consensus.MerkleRoot
import Chratos.Lib.MerklePlace

/-!
# Chratos — `MerkleComputation` as it runs (`consensus/merkle.cpp`)

The computation with its 32-bit counter, its array of 32 inner hashes and the branch it collects for one
leaf. `matchlevel` is the level of the inner hash that stands over that leaf. `none` is an access behind
the end of `inner`, or a shift by 32.

After `c` leaves, the inner hash at level `k` is the node at height `k` that ends with the `c`-th leaf,
for every digit of `c` that is set (`HoldsFrom`), and the leaf of the branch is below one of them
(`Located`). A hash that is carried up is again a node (`Carries`); both loops that carry are one
(`climbLoop`), and one lemma says where it ends (`exists_climbLoop`).
-/

namespace Chratos

open MerkleTree List Function

namespace MerkleMachine

/-! ## The computation -/

/-- What is kept between leaves. -/
structure MerkleState where
  count : Nat := 0
  inner : Nat → Uint256 := fun _ => 0
  matchlevel : Option Nat := none
  mutated : Bool := false
  branch : List Uint256 := []

/-- A hash on its way up. -/
structure MerkleCarry where
  level : Nat
  h : Uint256
  matchh : Bool
  mutated : Bool
  branch : List Uint256

/-- The part of a branch that is found at a level. -/
def MerkleCarry.collect (pbranch : Bool) (s : MerkleState) (c : MerkleCarry) : MerkleCarry :=
  if pbranch then
    if c.matchh then { c with branch := c.branch ++ [s.inner c.level] }
    else if s.matchlevel = some c.level then { c with branch := c.branch ++ [c.h], matchh := true }
    else c
  else c

section

variable (hash256 : List UInt8 → Uint256)

section

variable (pbranch fFill : Bool)

/-- One level up, with the inner hash on the left. While leaves are filled in, equal siblings are
noticed. -/
def MerkleCarry.climb (s : MerkleState) (c : MerkleCarry) : MerkleCarry :=
  { c.collect pbranch s with
    level := c.level + 1
    h := hashPair hash256 (s.inner c.level) c.h
    mutated := c.mutated || (fFill && s.inner c.level == c.h) }

/-- Up to the first digit of `count` that is set; the first argument is the number of levels left. -/
def climbLoop (s : MerkleState) (count : Nat) : Nat → MerkleCarry → Option MerkleCarry
  | 0, _ => none
  | levels + 1, c =>
    if count.testBit c.level then some c
    else climbLoop s count levels (c.climb hash256 pbranch fFill s)

/-- The hash that has been carried is put where it has arrived. -/
def MerkleState.store (s : MerkleState) (count : Nat) (c : MerkleCarry) : MerkleState where
  count := count
  inner := Function.update s.inner c.level c.h
  matchlevel := if c.matchh then some c.level else s.matchlevel
  mutated := c.mutated
  branch := c.branch

/-- The first loop, for one leaf. -/
def processLeaf (branchpos : Nat) (s : MerkleState) (leaf : Uint256) : Option MerkleState := do
  let count := (s.count + 1) % 2 ^ 32
  let c ← climbLoop hash256 pbranch true s count 32 ⟨0, leaf, s.count == branchpos, s.mutated, s.branch⟩
  pure (s.store count c)

/-- The lowest level that holds something. -/
def lowestLevel (count : Nat) : Nat → Nat → Option Nat
  | 0, _ => none
  | levels + 1, level =>
      if count.testBit level then some level else lowestLevel count levels (level + 1)

/-- A hash without a sibling is combined with itself. -/
def MerkleCarry.double (c : MerkleCarry) : MerkleCarry :=
  { c with
    level := c.level + 1
    h := hashPair hash256 c.h c.h
    branch := if pbranch && c.matchh then c.branch ++ [c.h] else c.branch }

/-- The final sweep, until `count` has one digit. -/
def sweepLoop (s : MerkleState) : Nat → Nat → MerkleCarry → Option MerkleCarry
  | 0, _, _ => none
  | levels + 1, count, c =>
    if count = 2 ^ c.level then some c
    else do
      let count := (count + 2 ^ c.level) % 2 ^ 32
      let c ← climbLoop hash256 pbranch false s count (32 - (c.level + 1)) (c.double hash256 pbranch)
      sweepLoop s levels count c

end

structure MerkleResult where
  root : Uint256
  mutated : Bool
  branch : List Uint256

/-- `MerkleComputation`; `pbranch` says whether a branch is asked for. -/
def merkleComputation (leaves : List Uint256) (branchpos : Nat)
    (pbranch : Bool) : Option MerkleResult :=
  if leaves = [] then some ⟨0, false, []⟩
  else do
    let s ← leaves.foldlM (processLeaf hash256 pbranch branchpos) {}
    let level ← lowestLevel s.count 32 0
    let c ← sweepLoop hash256 pbranch s 32 s.count
      ⟨level, s.inner level, s.matchlevel == some level, s.mutated, s.branch⟩
    pure ⟨c.h, s.mutated, c.branch⟩

/-- `ComputeMerkleRoot`, which asks for no branch: the root and the flag. -/
def computeMerkleRoot (leaves : List Uint256) : Option (Uint256 × Bool) :=
  (merkleComputation hash256 leaves (2 ^ 32 - 1) false).map fun r => (r.root, r.mutated)

def computeMerkleBranch (leaves : List Uint256) (position : Nat) : Option (List Uint256) :=
  (merkleComputation hash256 leaves position true).map (·.branch)

def computeMerkleRootFromBranch (leaf : Uint256)
    (vMerkleBranch : List Uint256) (nIndex : Nat) : Uint256 :=
  (vMerkleBranch.foldl (fun (hash, nIndex) it =>
    (if nIndex % 2 = 1 then hashPair hash256 it hash else hashPair hash256 hash it, nIndex / 2))
    (leaf, nIndex)).1

end

/-! ## A hash that is carried -/

variable {hash256 : List UInt8 → Uint256} {leaves : List Uint256} {s : MerkleState}
  {carry : MerkleCarry} {pbranch fFill : Bool} {i c c' j k m : Nat}

section

variable (hash256 : List UInt8 → Uint256) (leaves : List Uint256)

/-- From level `k` on, `inner` holds the nodes that end with the `c`-th leaf. -/
def HoldsFrom (s : MerkleState) (k c : Nat) : Prop :=
  ∀ j, k ≤ j → c / 2 ^ j % 2 = 1 → s.inner j = node (hashPair hash256) leaves j (c / 2 ^ j - 1)

/-- The hash is the `m`-th node at its height. -/
structure Carries (k m : Nat) (c : MerkleCarry) : Prop where
  level_eq : c.level = k
  h_eq : c.h = node (hashPair hash256) leaves k m

/-- The siblings on the way from the `i`-th leaf up to height `k`. -/
def siblings (i k : Nat) : List Uint256 :=
  (List.range k).map fun j => node (hashPair hash256) leaves j (sibling leaves j (i / 2 ^ j))

end

theorem siblings_succ (i k : Nat) :
    siblings hash256 leaves i (k + 1) = siblings hash256 leaves i k ++
      [node (hashPair hash256) leaves k (sibling leaves k (i / 2 ^ k))] := by
  rw [siblings, range_succ, map_append]
  rfl

section

variable (hash256 : List UInt8 → Uint256) (leaves : List Uint256) (i : Nat) (s : MerkleState)

/-- Where the `i`-th leaf is: below an inner hash from level `k` on, with the siblings up to there
in the branch; or it is still to come. -/
def Located (k c : Nat) : Prop :=
  (∃ l, k ≤ l ∧ s.matchlevel = some l ∧ c / 2 ^ l % 2 = 1 ∧ i / 2 ^ l + 1 = c / 2 ^ l ∧
      s.branch = siblings hash256 leaves i l) ∨
    (s.matchlevel = none ∧ s.branch = [] ∧ c ≤ i)

/-- The branch of a carried hash: either the leaf is below the hash, or it is where it was. -/
def Matches (c k m : Nat) (carry : MerkleCarry) : Prop :=
  (carry.matchh = true ∧ i / 2 ^ k = m ∧ carry.branch = siblings hash256 leaves i k) ∨
    (carry.matchh = false ∧ i / 2 ^ k ≠ m ∧ carry.branch = s.branch ∧
      Located hash256 leaves i s k c)

end

/-- A digit above an odd one: the number below it counts as well. -/
theorem div_two_pow_of_odd {m x k l : Nat} (hm : m % 2 = 1) (hx : x / 2 ^ k + 1 = m) (hl : k < l)
    {c : Nat} (hc : c / 2 ^ k = m) : x / 2 ^ l = c / 2 ^ l := by
  obtain ⟨d, rfl⟩ := Nat.exists_eq_add_of_lt hl
  have hsplit : ∀ y, y / 2 ^ (k + d + 1) = y / 2 ^ k / 2 / 2 ^ d := fun y => by
    rw [Nat.div_div_eq_div_mul, Nat.div_div_eq_div_mul, pow_succ, pow_add, mul_assoc,
      mul_comm (2 ^ d) 2]
  have hhalf : x / 2 ^ k / 2 = m / 2 := by omega
  rw [hsplit, hsplit, hc, hhalf]

theorem div_of_count (hcount : c = (m + 1) * 2 ^ k) : c / 2 ^ k = m + 1 := by
  rw [hcount, Nat.mul_div_cancel _ (Nat.two_pow_pos k)]

/-- The digits below are not set. -/
theorem even_div_of_count (hcount : c = (m + 1) * 2 ^ k) (hj : j < k) : c / 2 ^ j % 2 = 0 := by
  obtain ⟨d, rfl⟩ := Nat.exists_eq_add_of_lt hj
  have hlow : c / 2 ^ j = 2 * ((m + 1) * 2 ^ d) := by
    rw [hcount, show j + d + 1 = d + 1 + j by omega, pow_add 2 (d + 1) j, ← mul_assoc,
      Nat.mul_div_cancel _ (Nat.two_pow_pos j), mul_two_pow_succ, Nat.mul_assoc]
  omega

/-- The count goes from `c` to `c'`, where the `m`-th node at height `k` ends. -/
structure Grows (c c' k m : Nat) : Prop where
  lt : c < c'
  count_eq : c' = (m + 1) * 2 ^ k
  le : c' ≤ c + 2 ^ k

/-- The old count, where the new one ends with a complete node. -/
theorem Grows.div_eq (h : Grows c c' k m) : c / 2 ^ k = m := by
  obtain ⟨hlt, hcount, hle⟩ := h
  rw [Nat.succ_mul] at hcount
  apply Nat.div_eq_of_lt_le
  · omega
  · rw [Nat.succ_mul]
    omega

/-- One level up: the hash is the parent node. -/
theorem Carries.climb (pbranch fFill : Bool) (hcarry : Carries hash256 leaves k m carry)
    (hholds : HoldsFrom hash256 leaves s k c) (hdiv : c / 2 ^ k = m) (hodd : m % 2 = 1)
    (hin : m * 2 ^ k < leaves.length) : s.inner k = node (hashPair hash256) leaves k (m - 1) ∧
      Carries hash256 leaves (k + 1) (m / 2) (carry.climb hash256 pbranch fFill s) := by
  have hinner : s.inner k = node (hashPair hash256) leaves k (m - 1) := by
    rw [hholds k le_rfl (by rw [hdiv]; exact hodd), hdiv]
  refine ⟨hinner, by rw [MerkleCarry.climb, hcarry.level_eq], ?_⟩
  show hashPair hash256 (s.inner carry.level) carry.h = _
  rw [hcarry.level_eq, hinner, hcarry.h_eq, node_succ_div k hin, if_pos hodd, sibling, if_pos hodd]

/-- One level up: the branch gets the sibling of the node above its leaf. -/
theorem Matches.climb (hmatch : Matches hash256 leaves i s c k m carry)
    (hcarry : Carries hash256 leaves k m carry)
    (hinner : s.inner k = node (hashPair hash256) leaves k (m - 1)) (hdiv : c / 2 ^ k = m)
    (hodd : m % 2 = 1) (hin : m * 2 ^ k < leaves.length) :
    Matches hash256 leaves i s c (k + 1) (m / 2) (carry.climb hash256 true fFill s) := by
  have hup : i / 2 ^ (k + 1) = i / 2 ^ k / 2 := by rw [pow_succ, Nat.div_div_eq_div_mul]
  rw [Matches, hup]
  rcases hmatch with ⟨hh, hi, hbranch⟩ | ⟨hh, hi, hbranch, hloc⟩
  · -- the leaf is below the hash, so its sibling is the inner hash
    refine .inl ⟨?_, by rw [hi], ?_⟩
    · simp [MerkleCarry.climb, MerkleCarry.collect, hh]
    · have hsib : sibling leaves k (i / 2 ^ k) = m - 1 := by rw [sibling, hi, if_pos hodd]
      simp [MerkleCarry.climb, MerkleCarry.collect, hh, hcarry.level_eq, hinner, siblings_succ,
        hsib, hbranch]
  · by_cases hlevel : s.matchlevel = some k
    · -- the leaf is below the inner hash, so its sibling is the hash that is carried
      have hloc' : i / 2 ^ k + 1 = m ∧ s.branch = siblings hash256 leaves i k := by
        rcases hloc with ⟨l, -, hl, -, hil, hbr⟩ | ⟨hl, -⟩
        · cases hl.symm.trans hlevel
          exact ⟨hil.trans hdiv, hbr⟩
        · cases hl.symm.trans hlevel
      obtain ⟨him, hbr⟩ := hloc'
      have hsib : sibling leaves k (i / 2 ^ k) = m := by
        rw [sibling, if_neg (by omega), him, if_pos hin]
      refine .inl ⟨?_, by omega, ?_⟩
      · simp [MerkleCarry.climb, MerkleCarry.collect, hh, hcarry.level_eq, hlevel]
      · simp [MerkleCarry.climb, MerkleCarry.collect, hh, hcarry.level_eq, hlevel, siblings_succ,
          hsib, hbranch, hbr, hcarry.h_eq]
    · -- the leaf is further up or still to come
      have habove : i / 2 ^ k + 1 ≠ m ∧ Located hash256 leaves i s (k + 1) c := by
        rcases hloc with ⟨l, hkl, hl, hbit, hil, hbr⟩ | ⟨hl, hbr, hci⟩
        · have hne : k ≠ l := fun heq => hlevel (heq ▸ hl)
          have hlt : k < l := by omega
          refine ⟨fun him => ?_, .inl ⟨l, hlt, hl, hbit, hil, hbr⟩⟩
          have := div_two_pow_of_odd hodd him hlt hdiv
          omega
        · have := Nat.div_le_div_right (c := 2 ^ k) hci
          exact ⟨by omega, .inr ⟨hl, hbr, hci⟩⟩
      refine .inr ⟨?_, by omega, ?_, habove.2⟩
      · simp [MerkleCarry.climb, MerkleCarry.collect, hh, hcarry.level_eq, hlevel]
      · simp [MerkleCarry.climb, MerkleCarry.collect, hh, hcarry.level_eq, hlevel, hbranch]

/-- **The loop that carries.** From a node that ends with the `c'`-th leaf, complete or not, it leads to
the highest such node that is a left child. On its way it has compared the siblings at each level. -/
theorem exists_climbLoop (i : Nat) (pbranch fFill : Bool) (hc' : c' < 2 ^ 32) {levels : Nat}
    (hlevels : k + levels = 32) (hgrows : Grows c c' k m) (hin : m * 2 ^ k < leaves.length)
    (hholds : HoldsFrom hash256 leaves s k c) (hcarry : Carries hash256 leaves k m carry) :
    ∃ k' m' carry', climbLoop hash256 pbranch fFill s c' levels carry = some carry' ∧
      k ≤ k' ∧ k' < 32 ∧ Grows c c' k' m' ∧ m' * 2 ^ k' < leaves.length ∧ m' % 2 = 0 ∧
      Carries hash256 leaves k' m' carry' ∧
      (pbranch = true → Matches hash256 leaves i s c k m carry →
        Matches hash256 leaves i s c k' m' carry') ∧
      (carry'.mutated = true ↔ carry.mutated = true ∨ fFill = true ∧ ∃ j q, k ≤ j ∧
        (2 * q + 2) * 2 ^ j = c' ∧
        node (hashPair hash256) leaves j (2 * q) = node (hashPair hash256) leaves j (2 * q + 1)) := by
  have hcount := hgrows.count_eq
  induction levels generalizing k m carry with
  | zero =>
    -- at level 32 the count would be 2 ^ 32 at least
    have : 2 ^ 32 ≤ (m + 1) * 2 ^ k := by
      rw [show k = 32 by omega]
      exact Nat.le_mul_of_pos_left _ (Nat.succ_pos m)
    omega
  | succ levels ih =>
    have hpos := Nat.two_pow_pos k
    rw [climbLoop, hcarry.level_eq, Nat.testBit_eq_decide_div_mod_eq, div_of_count hcount]
    rcases Nat.mod_two_eq_zero_or_one m with heven | hodd
    · rw [if_pos (by simp; omega)]
      refine ⟨k, m, carry, rfl, le_rfl, by omega, hgrows, hin, heven, hcarry, fun _ h => h, ?_⟩
      -- nothing ends here: the count is an odd multiple
      refine ⟨.inl, fun h => h.elim id ?_⟩
      rintro ⟨-, j, q, hkj, hq, -⟩
      obtain ⟨d, rfl⟩ := Nat.exists_eq_add_of_le hkj
      have hmul : (2 * q + 2) * 2 ^ d * 2 ^ k = (m + 1) * 2 ^ k := by
        rw [mul_assoc, ← pow_add, add_comm d k, hq, hcount]
      have hm : 2 * ((q + 1) * 2 ^ d) = m + 1 := by
        rw [← mul_assoc, mul_add]
        exact Nat.eq_of_mul_eq_mul_right hpos hmul
      omega
    · rw [if_neg (by simp; omega)]
      have hdiv := hgrows.div_eq
      have hle := hgrows.le
      obtain ⟨hinner, hcarry'⟩ := hcarry.climb pbranch fFill hholds hdiv hodd hin
      have hcount' : c' = (m / 2 + 1) * 2 ^ (k + 1) := by
        rw [hcount, mul_two_pow_succ]
        congr 1
        omega
      have hin' : m / 2 * 2 ^ (k + 1) < leaves.length := by
        rw [mul_two_pow_succ]
        exact lt_of_le_of_lt (Nat.mul_le_mul_right _ (by omega)) hin
      obtain ⟨k', m', carry', hloop, hk, hk32, hgrows', hin'', heven, hcarries, hmatches, hmutated⟩ :=
        ih (by omega) ⟨hgrows.lt, hcount', by rw [pow_succ]; omega⟩ hin'
          (fun j hj => hholds j (by omega)) hcarry' hcount'
      refine ⟨k', m', carry', hloop, by omega, hk32, hgrows', hin'', heven, hcarries, ?_, ?_⟩
      · intro hpbranch hmatch
        subst hpbranch
        exact hmatches rfl (hmatch.climb hcarry hinner hdiv hodd hin)
      · rw [hmutated]
        -- the siblings compared at this level
        have hflag : (carry.climb hash256 pbranch fFill s).mutated = true ↔ carry.mutated = true ∨
            fFill = true ∧ node (hashPair hash256) leaves k (m - 1) =
              node (hashPair hash256) leaves k m := by
          show (carry.mutated || (fFill && s.inner carry.level == carry.h)) = true ↔ _
          rw [hcarry.level_eq, hinner, hcarry.h_eq, Bool.or_eq_true, Bool.and_eq_true, beq_iff_eq]
        rw [hflag, or_assoc, ← and_or_left]
        refine or_congr_right (and_congr_right fun _ => ⟨?_, ?_⟩)
        · rintro (heq | ⟨j, q, hj, hq, heq⟩)
          · have hhalf : 2 * (m / 2) = m - 1 := by omega
            have hback : m - 1 + 1 = m := by omega
            refine ⟨k, m / 2, le_rfl, ?_, by rw [hhalf, hback, heq]⟩
            rw [hcount]
            congr 1
            omega
          · exact ⟨j, q, by omega, hq, heq⟩
        · rintro ⟨j, q, hj, hq, heq⟩
          rcases eq_or_lt_of_le hj with rfl | hlt
          · have hm := Nat.eq_of_mul_eq_mul_right hpos (hq.trans hcount)
            have hpred : m - 1 = 2 * q := by omega
            have hself : m = 2 * q + 1 := by omega
            exact .inl (by rw [hpred, heq, ← hself])
          · exact .inr ⟨j, q, hlt, hq, heq⟩

/-! ## The leaves -/

/-- The digits above the lowest one that is set are those of the old count. -/
theorem Grows.div_of_lt (h : Grows c c' k m) (heven : m % 2 = 0) (hj : k < j) :
    c' / 2 ^ j = c / 2 ^ j := by
  have hodd : (m + 1) % 2 = 1 := by omega
  exact (div_two_pow_of_odd hodd (by rw [h.div_eq]) hj (div_of_count h.count_eq)).symm

/-- The node that has been carried joins those above it. -/
theorem HoldsFrom.store (h : HoldsFrom hash256 leaves s 0 c) (hcarry : Carries hash256 leaves k m carry)
    (hgrows : Grows c c' k m) (heven : m % 2 = 0) :
      HoldsFrom hash256 leaves (s.store c' carry) 0 c' := by
  intro j _ hbit
  show update s.inner carry.level carry.h j = _
  rw [hcarry.level_eq]
  rcases lt_trichotomy j k with hjk | rfl | hjk
  · have := even_div_of_count hgrows.count_eq hjk
    omega
  · rw [update_self, hcarry.h_eq, div_of_count hgrows.count_eq, Nat.add_sub_cancel]
  · have hsame := hgrows.div_of_lt heven hjk
    rw [update_of_ne (by omega), hsame]
    exact h j (Nat.zero_le j) (hsame ▸ hbit)

/-- Above the place where a carry ends, the leaf is where it was. -/
theorem Located.above (h : Located hash256 leaves i s k c) (hgrows : Grows c c' k m)
    (heven : m % 2 = 0) :
    (∃ l, k < l ∧ s.matchlevel = some l ∧ c' / 2 ^ l % 2 = 1 ∧ i / 2 ^ l + 1 = c' / 2 ^ l ∧
        s.branch = siblings hash256 leaves i l) ∨
      (s.matchlevel = none ∧ s.branch = [] ∧ c ≤ i) := by
  rcases h with ⟨l, hkl, hl, hbit, hil, hbr⟩ | hnone
  · have hne : k ≠ l := by
      rintro rfl
      rw [hgrows.div_eq] at hbit
      omega
    have hsame := hgrows.div_of_lt heven (show k < l by omega)
    exact .inl ⟨l, by omega, hl, by rw [hsame]; exact hbit, by rw [hsame]; exact hil, hbr⟩
  · exact .inr hnone

/-- The leaf is below the node that has been carried, or where it was. -/
theorem Matches.store (h : Matches hash256 leaves i s c k m carry)
    (hcarry : Carries hash256 leaves k m carry) (hgrows : Grows c (c + 1) k m) (heven : m % 2 = 0) :
    Located hash256 leaves i (s.store (c + 1) carry) 0 (c + 1) := by
  have hdiv := div_of_count hgrows.count_eq
  have hlevel : (s.store (c + 1) carry).matchlevel =
      if carry.matchh then some carry.level else s.matchlevel := rfl
  rcases h with ⟨hh, hi, hbranch⟩ | ⟨hh, hi, hbranch, hloc⟩
  · rw [hh, if_pos rfl, hcarry.level_eq] at hlevel
    exact .inl ⟨k, Nat.zero_le k, hlevel, by rw [hdiv]; omega, by rw [hdiv, hi], hbranch⟩
  · rw [hh, if_neg Bool.false_ne_true] at hlevel
    rcases hloc.above hgrows heven with ⟨l, -, hl, hbit, hil, hbr⟩ | ⟨hl, hbr, hci⟩
    · exact .inl ⟨l, Nat.zero_le l, hlevel.trans hl, hbit, hil, hbranch.trans hbr⟩
    · have hne : c ≠ i := by
        rintro rfl
        exact hi hgrows.div_eq
      exact .inr ⟨hlevel.trans hl, hbranch.trans hbr, by omega⟩

/-- What is known after `c` leaves. -/
structure Counted (hash256 : List UInt8 → Uint256) (leaves : List Uint256) (i : Nat) (pbranch : Bool)
    (c : Nat) (s : MerkleState) : Prop where
  count_eq : s.count = c
  holds : HoldsFrom hash256 leaves s 0 c
  mutated_iff : s.mutated = true ↔ ∃ k q, (2 * q + 2) * 2 ^ k ≤ c ∧
    node (hashPair hash256) leaves k (2 * q) = node (hashPair hash256) leaves k (2 * q + 1)
  located : pbranch = true → Located hash256 leaves i s 0 c

theorem counted_zero (pbranch : Bool) : Counted hash256 leaves i pbranch 0 {} where
  count_eq := rfl
  holds := by
    intro j _ hbit
    rw [Nat.zero_div] at hbit
    cases hbit
  mutated_iff := by
    refine ⟨nofun, ?_⟩
    rintro ⟨k, q, hle, -⟩
    have := mul_pos (show 0 < 2 * q + 2 by omega) (Nat.two_pow_pos k)
    omega
  located := fun _ => .inr ⟨rfl, rfl, Nat.zero_le i⟩

/-- A leaf begins as a node at height 0. -/
theorem Counted.matches_leaf (h : Counted hash256 leaves i pbranch c s) (hpbranch : pbranch = true)
    (leaf : Uint256) :
    Matches hash256 leaves i s c 0 c ⟨0, leaf, s.count == i, s.mutated, s.branch⟩ := by
  rw [Matches, pow_zero, Nat.div_one, h.count_eq]
  by_cases hic : c = i
  · -- before its own leaf the branch is empty
    have hbranch : s.branch = [] := by
      rcases h.located hpbranch with ⟨l, -, -, -, hil, -⟩ | ⟨-, hbranch, -⟩
      · rw [hic] at hil
        omega
      · exact hbranch
    exact .inl ⟨beq_iff_eq.mpr hic, hic.symm, hbranch⟩
  · exact .inr ⟨beq_eq_false_iff_ne.mpr hic, Ne.symm hic, rfl, h.located hpbranch⟩

/-- `processLeaf` does not fail, and counts one leaf more. -/
theorem Counted.processLeaf {leaf : Uint256} (h : Counted hash256 leaves i pbranch c s)
    (hleaf : leaves[c]? = some leaf) (hlength : leaves.length ≤ 2 ^ 31) :
    ∃ s', processLeaf hash256 pbranch i s leaf = some s' ∧
      Counted hash256 leaves i pbranch (c + 1) s' := by
  have hc : c < leaves.length := (List.getElem?_eq_some_iff.mp hleaf).1
  have hcount : (s.count + 1) % 2 ^ 32 = c + 1 := by
    rw [h.count_eq]
    exact Nat.mod_eq_of_lt (by omega)
  have hstart : Carries hash256 leaves 0 c ⟨0, leaf, s.count == i, s.mutated, s.branch⟩ :=
    ⟨rfl, by rw [node, getD_eq_getElem?_getD, hleaf, Option.getD_some]⟩
  have hgrows : Grows c (c + 1) 0 c := ⟨lt_add_one c, by rw [pow_zero, mul_one], le_rfl⟩
  obtain ⟨k, m, carry, hloop, -, hk, hgrows', hin, heven, hcarries, hmatches, hmutated⟩ :=
    exists_climbLoop i pbranch true (by omega) (zero_add 32) hgrows
      (by rw [pow_zero, mul_one]; exact hc) h.holds hstart
  refine ⟨s.store (c + 1) carry, ?_, rfl, h.holds.store hcarries hgrows' heven, ?_, ?_⟩
  · show (climbLoop hash256 pbranch true s ((s.count + 1) % 2 ^ 32) 32 _ >>= fun c => pure
      (s.store ((s.count + 1) % 2 ^ 32) c)) = some _
    rw [hcount, hloop]
    rfl
  · show carry.mutated = true ↔ _
    rw [hmutated, h.mutated_iff]
    constructor
    · rintro (⟨j, q, hle', heq⟩ | ⟨-, j, q, -, hq, heq⟩)
      · exact ⟨j, q, by omega, heq⟩
      · exact ⟨j, q, hq.le, heq⟩
    · -- a pair of siblings that was not complete before ends with this leaf
      rintro ⟨j, q, hle', heq⟩
      rcases lt_or_ge c ((2 * q + 2) * 2 ^ j) with hlt | hge
      · exact .inr ⟨rfl, j, q, Nat.zero_le j, by omega, heq⟩
      · exact .inl ⟨j, q, hge, heq⟩
  · intro hpbranch
    exact (hmatches hpbranch (h.matches_leaf hpbranch leaf)).store hcarries hgrows' heven

/-- The loop over the leaves ends with all of them counted. -/
theorem exists_processLeaves (pbranch : Bool) (hlength : leaves.length ≤ 2 ^ 31) :
    ∃ s, leaves.foldlM (MerkleMachine.processLeaf hash256 pbranch i) {} = some s ∧
      Counted hash256 leaves i pbranch leaves.length s := by
  -- the leaves that are done, and those that are left
  have hrun : ∀ rest seen s, leaves = seen ++ rest →
      Counted hash256 leaves i pbranch seen.length s →
      ∃ s', rest.foldlM (MerkleMachine.processLeaf hash256 pbranch i) s = some s' ∧
        Counted hash256 leaves i pbranch leaves.length s' := by
    intro rest
    induction rest with
    | nil =>
      intro seen s hsplit h
      rw [hsplit, append_nil] at *
      exact ⟨s, rfl, h⟩
    | cons leaf rest ih =>
      intro seen s hsplit h
      have hleaf : leaves[seen.length]? = some leaf := by
        rw [hsplit, getElem?_append_right le_rfl, Nat.sub_self]
        rfl
      obtain ⟨s', hstep, h'⟩ := h.processLeaf hleaf hlength
      obtain ⟨s'', hrest, hdone⟩ := ih (seen ++ [leaf]) s' (by rw [hsplit, append_assoc]; rfl)
        (by rw [length_append]; exact h')
      refine ⟨s'', ?_, hdone⟩
      rw [foldlM_cons, hstep]
      exact hrest
  exact hrun leaves [] {} rfl (counted_zero pbranch)

/-! ## The sweep -/

theorem exists_lowestLevel {count : Nat} (hpos : 0 < count) (hlt : count < 2 ^ 32)
    {levels level q : Nat} (hlevels : level + levels = 32) (hcount : count = q * 2 ^ level) :
    ∃ k m, lowestLevel count levels level = some k ∧ k < 32 ∧ count = (m + 1) * 2 ^ k ∧
      m % 2 = 0 := by
  induction levels generalizing level q with
  | zero =>
    rw [show level = 32 by omega] at hcount
    omega
  | succ levels ih =>
    have hdiv : count / 2 ^ level = q := by rw [hcount, Nat.mul_div_cancel _ (Nat.two_pow_pos level)]
    rw [lowestLevel, Nat.testBit_eq_decide_div_mod_eq, hdiv]
    rcases Nat.mod_two_eq_zero_or_one q with heven | hodd
    · rw [if_neg (by simp [heven])]
      refine ih (by omega) (q := q / 2) ?_
      rw [mul_two_pow_succ, hcount]
      congr 1
      omega
    · refine ⟨level, q - 1, if_pos (by simp [hodd]), by omega, ?_, by omega⟩
      rw [hcount]
      congr 1
      omega

/-- The state of the sweep: `c` is the count with the missing leaves added up to level `k`, and the hash
is the last node of its row. -/
structure Sweeps (hash256 : List UInt8 → Uint256) (leaves : List Uint256) (i : Nat) (pbranch : Bool)
    (s : MerkleState) (c k m : Nat) (carry : MerkleCarry) : Prop where
  level_lt : k < 32
  count_eq : c = (m + 1) * 2 ^ k
  even : m % 2 = 0
  last : m * 2 ^ k < leaves.length
  covers : leaves.length ≤ c
  top : c ≤ 2 ^ Nat.clog 2 leaves.length
  holds : HoldsFrom hash256 leaves s (k + 1) c
  carries : Carries hash256 leaves k m carry
  branch : pbranch = true →
    (carry.matchh = true ∧ i / 2 ^ k = m ∧ carry.branch = siblings hash256 leaves i k) ∨
      (carry.matchh = false ∧ i / 2 ^ k ≠ m ∧ carry.branch = s.branch ∧
        Located hash256 leaves i s (k + 1) c)

section

variable (h : Sweeps hash256 leaves i pbranch s c k m carry)
include h

/-- At the top of the tree the sweep is at its root. -/
theorem Sweeps.eq_clog (htop : c = 2 ^ k) : k = Nat.clog 2 leaves.length ∧ m = 0 := by
  have hm : m = 0 := by
    have hone : (m + 1) * 2 ^ k = 1 * 2 ^ k := by rw [← h.count_eq, htop, one_mul]
    have := Nat.eq_of_mul_eq_mul_right (Nat.two_pow_pos k) hone
    omega
  have hlow : Nat.clog 2 leaves.length ≤ k := Nat.clog_le_of_le_pow (htop ▸ h.covers)
  have hhigh : k ≤ Nat.clog 2 leaves.length :=
    (Nat.pow_le_pow_iff_right (by decide)).mp (htop ▸ h.top)
  exact ⟨Nat.le_antisymm hhigh hlow, hm⟩

/-- Below the top there is room for one more node of the row. -/
theorem Sweeps.add_le_top (htop : c ≠ 2 ^ k) : c + 2 ^ k ≤ 2 ^ Nat.clog 2 leaves.length := by
  have hcount := h.count_eq
  have heven := h.even
  have hm : m ≠ 0 := by
    rintro rfl
    exact htop (by rw [hcount, Nat.zero_add, one_mul])
  have hpos := Nat.two_pow_pos k
  have hlt : 2 ^ k < 2 ^ Nat.clog 2 leaves.length := by
    refine lt_of_lt_of_le ?_ h.top
    rw [hcount]
    exact (lt_mul_iff_one_lt_left hpos).mpr (by omega)
  have hk : k < Nat.clog 2 leaves.length := (Nat.pow_lt_pow_iff_right (by decide)).mp hlt
  obtain ⟨e, he⟩ := Nat.exists_eq_add_of_lt hk
  have hsplit : 2 ^ Nat.clog 2 leaves.length = 2 * 2 ^ e * 2 ^ k := by
    rw [he, show k + e + 1 = e + 1 + k by omega, pow_add, pow_succ, mul_comm (2 ^ e) 2]
  -- an odd number below an even one
  have hle : m + 1 ≤ 2 * 2 ^ e := by
    have := h.top
    rw [hcount, hsplit] at this
    exact le_of_mul_le_mul_right this hpos
  have hroom : m + 2 ≤ 2 * 2 ^ e := by omega
  have := Nat.mul_le_mul_right (2 ^ k) hroom
  rw [hsplit, hcount, ← Nat.succ_mul]
  exact this

section

variable (hi : pbranch = true → i < leaves.length)

include hi

/-- The hash without a sibling is combined with itself. -/
theorem Sweeps.double : Carries hash256 leaves (k + 1) (m / 2) (carry.double hash256 pbranch) ∧
      (pbranch = true → Matches hash256 leaves i s c (k + 1) (m / 2)
        (carry.double hash256 pbranch)) := by
  have heven := h.even
  have hnone : ¬ (m + 1) * 2 ^ k < leaves.length := by
    rw [← h.count_eq]
    exact not_lt.mpr h.covers
  have hsib : sibling leaves k m = m := by rw [sibling, if_neg (by omega), if_neg hnone]
  constructor
  · refine ⟨by rw [MerkleCarry.double, h.carries.level_eq], ?_⟩
    rw [node_succ_div k h.last, if_neg (by omega), hsib, MerkleCarry.double, h.carries.h_eq]
  · intro hpbranch
    have hup : i / 2 ^ (k + 1) = i / 2 ^ k / 2 := by rw [pow_succ, Nat.div_div_eq_div_mul]
    -- no leaf is beyond the last node
    have hlast : i / 2 ^ k < m + 1 := by
      rw [Nat.div_lt_iff_lt_mul (Nat.two_pow_pos k), ← h.count_eq]
      exact lt_of_lt_of_le (hi hpbranch) h.covers
    rw [Matches, hup]
    rcases h.branch hpbranch with ⟨hh, hm, hbranch⟩ | ⟨hh, hm, hbranch, hloc⟩
    · refine .inl ⟨hh, by rw [hm], ?_⟩
      show (if pbranch && carry.matchh then carry.branch ++ [carry.h] else carry.branch) = _
      rw [hpbranch, hh, Bool.and_self, if_pos rfl, siblings_succ, hm, hsib, hbranch, h.carries.h_eq]
    · refine .inr ⟨hh, by omega, ?_, hloc⟩
      show (if pbranch && carry.matchh then carry.branch ++ [carry.h] else carry.branch) = _
      rw [hh, Bool.and_false, if_neg Bool.false_ne_true, hbranch]

/-- One round: the hash is combined with itself and carried up. -/
theorem Sweeps.round (hlength : leaves.length ≤ 2 ^ 31) (htop : c ≠ 2 ^ k) :
    (c + 2 ^ k) % 2 ^ 32 = c + 2 ^ k ∧ ∃ k' m' carry',
      climbLoop hash256 pbranch false s (c + 2 ^ k) (32 - (k + 1)) (carry.double hash256 pbranch) =
        some carry' ∧ k < k' ∧ Sweeps hash256 leaves i pbranch s (c + 2 ^ k) k' m' carry' := by
  have hclog : Nat.clog 2 leaves.length ≤ 31 := Nat.clog_le_of_le_pow hlength
  have hroom := h.add_le_top htop
  have hbound : c + 2 ^ k < 2 ^ 32 :=
    lt_of_le_of_lt (hroom.trans (Nat.pow_le_pow_right (by decide) hclog)) (by decide)
  have heven := h.even
  have hpos := Nat.two_pow_pos k
  have hcount : c + 2 ^ k = (m / 2 + 1) * 2 ^ (k + 1) := by
    rw [h.count_eq, mul_two_pow_succ, ← Nat.succ_mul]
    congr 1
    omega
  have hin : m / 2 * 2 ^ (k + 1) < leaves.length := by
    rw [mul_two_pow_succ, show 2 * (m / 2) = m by omega]
    exact h.last
  have hlevel := h.level_lt
  have hlevels : k + 1 + (32 - (k + 1)) = 32 := by omega
  have hgrows : Grows c (c + 2 ^ k) (k + 1) (m / 2) := ⟨Nat.lt_add_of_pos_right hpos, hcount, by omega⟩
  obtain ⟨hcarries, hmatches⟩ := h.double hi
  obtain ⟨k', m', carry', hloop, hk, hk32, hgrows', hin', heven', hcarries', hmatches', -⟩ :=
    exists_climbLoop i pbranch false hbound hlevels hgrows hin h.holds hcarries
  refine ⟨Nat.mod_eq_of_lt hbound, k', m', carry', hloop, by omega, ?_⟩
  refine ⟨hk32, hgrows'.count_eq, heven', hin', h.covers.trans (Nat.le_add_right _ _), hroom, ?_,
    hcarries', ?_⟩
  · intro j hj hbit
    have hsame := hgrows'.div_of_lt heven' (show k' < j by omega)
    rw [hsame] at hbit ⊢
    exact h.holds j (by omega) hbit
  · intro hpbranch
    rcases hmatches' hpbranch (hmatches hpbranch) with hmatch | ⟨hh, hm, hbranch, hloc⟩
    · exact .inl hmatch
    · refine .inr ⟨hh, hm, hbranch, ?_⟩
      rcases hloc.above hgrows' heven' with hsome | ⟨-, -, hci⟩
      · exact .inl hsome
      · exact absurd (lt_of_lt_of_le (hi hpbranch) h.covers) (not_lt.mpr hci)

/-- **The sweep** ends with the root. -/
theorem Sweeps.exists_sweepLoop (hlength : leaves.length ≤ 2 ^ 31) {levels : Nat}
    (hlevels : 32 ≤ k + levels) :
    ∃ carry', sweepLoop hash256 pbranch s levels c carry = some carry' ∧
      carry'.h = node (hashPair hash256) leaves (Nat.clog 2 leaves.length) 0 ∧ (pbranch = true →
        carry'.branch = siblings hash256 leaves i (Nat.clog 2 leaves.length)) := by
  induction levels generalizing c k m carry with
  | zero =>
    have := h.level_lt
    omega
  | succ levels ih =>
    rw [sweepLoop, h.carries.level_eq]
    by_cases htop : c = 2 ^ k
    · obtain ⟨hk, hm⟩ := h.eq_clog htop
      subst hm
      refine ⟨carry, if_pos htop, by rw [h.carries.h_eq, hk], fun hpbranch => ?_⟩
      rcases h.branch hpbranch with ⟨-, -, hbranch⟩ | ⟨-, hne, -⟩
      · rw [hbranch, hk]
      · exact absurd (Nat.div_eq_of_lt (htop ▸ lt_of_lt_of_le (hi hpbranch) h.covers)) hne
    · rw [if_neg htop]
      obtain ⟨hmod, k', m', carry', hloop, hk, hsweeps⟩ := h.round hi hlength htop
      obtain ⟨carry'', hrest, hend⟩ := ih hsweeps (by omega)
      refine ⟨carry'', ?_, hend⟩
      show (climbLoop hash256 pbranch false s ((c + 2 ^ k) % 2 ^ 32) (32 - (k + 1)) _ >>= fun c' =>
        sweepLoop hash256 pbranch s levels ((c + 2 ^ k) % 2 ^ 32) c') = _
      rw [hmod, hloop]
      exact hrest

end

end

/-- The sweep begins with the lowest inner hash. -/
theorem Counted.sweeps (h : Counted hash256 leaves i pbranch leaves.length s) (hk : k < 32)
    (hcount : leaves.length = (m + 1) * 2 ^ k) (heven : m % 2 = 0)
      (hi : pbranch = true → i < leaves.length) :
    Sweeps hash256 leaves i pbranch s leaves.length k m
      ⟨k, s.inner k, s.matchlevel == some k, s.mutated, s.branch⟩ where
  level_lt := hk
  count_eq := hcount
  even := heven
  last := by
    have := Nat.two_pow_pos k
    rw [hcount, Nat.succ_mul]
    omega
  covers := le_rfl
  top := Nat.le_pow_clog (by decide) _
  holds := fun j _ => h.holds j (Nat.zero_le j)
  carries := by
    have hdiv := div_of_count hcount
    refine ⟨rfl, ?_⟩
    rw [h.holds k (Nat.zero_le k) (by rw [hdiv]; omega), hdiv, Nat.add_sub_cancel]
  branch := by
    intro hpbranch
    have hdiv := div_of_count hcount
    rcases h.located hpbranch with ⟨l, -, hl, hbit, hil, hbr⟩ | ⟨-, -, hge⟩
    · rcases lt_trichotomy l k with hlk | rfl | hkl
      · have := even_div_of_count hcount hlk
        omega
      · exact .inl ⟨beq_iff_eq.mpr hl, by omega, hbr⟩
      · refine .inr ⟨?_, fun him => ?_, rfl, .inl ⟨l, hkl, hl, hbit, hil, hbr⟩⟩
        · rw [hl]
          exact beq_eq_false_iff_ne.mpr fun heq => by cases heq; omega
        · have := div_two_pow_of_odd (by omega) (by rw [him]) hkl hdiv
          omega
    · have := hi hpbranch
      omega

/-! ## The whole computation -/

/-- **The computation comes to its end**, with the root of the tree, the flag of all equal complete
siblings, and the siblings on the way up from the leaf at `i`. -/
theorem exists_merkleComputation (hne : leaves ≠ []) (hlength : leaves.length ≤ 2 ^ 31)
    (pbranch : Bool) (hi : pbranch = true → i < leaves.length) :
    ∃ r, merkleComputation hash256 leaves i pbranch = some r ∧
      (r.root, r.mutated) = Chratos.computeMerkleRoot hash256 leaves ∧
      (pbranch = true → r.branch = siblings hash256 leaves i (Nat.clog 2 leaves.length)) := by
  have hpos : 0 < leaves.length := length_pos_iff.mpr hne
  obtain ⟨s, hfold, hcounted⟩ : ∃ s, leaves.foldlM (processLeaf hash256 pbranch i) {} = some s ∧
      Counted hash256 leaves i pbranch leaves.length s := exists_processLeaves pbranch hlength
  obtain ⟨k, m, hlowest, hk, hcount, heven⟩ := exists_lowestLevel hpos (by omega)
    (show 0 + 32 = 32 from rfl) (show _ = leaves.length * 2 ^ 0 by rw [pow_zero, mul_one])
  obtain ⟨carry, hsweep, hroot, hbranch⟩ :=
    (hcounted.sweeps hk hcount heven hi).exists_sweepLoop hi hlength (show 32 ≤ k + 32 by omega)
  refine ⟨⟨carry.h, s.mutated, carry.branch⟩, ?_, ?_, hbranch⟩
  · rw [merkleComputation, if_neg hne, hfold]
    show (lowestLevel s.count 32 0 >>= _) = _
    rw [hcounted.count_eq, hlowest]
    show (sweepLoop hash256 pbranch s 32 leaves.length
      ⟨k, s.inner k, s.matchlevel == some k, s.mutated, s.branch⟩ >>= _) = _
    rw [hsweep]
    rfl
  · have hfits := Nat.le_pow_clog (by decide : 1 < 2) leaves.length
    rw [computeMerkleRoot_eq hne, root_eq_node hne hfits, hroot]
    refine Prod.ext rfl (Bool.eq_iff_iff.mpr ?_)
    rw [hcounted.mutated_iff, twins_iff hne hfits]
    rfl

/-- `ComputeMerkleRoot` as it runs is the binary counter. -/
theorem computeMerkleRoot_eq (hlength : leaves.length ≤ 2 ^ 31) :
    computeMerkleRoot hash256 leaves = some (Chratos.computeMerkleRoot hash256 leaves) := by
  by_cases hne : leaves = []
  · subst hne
    rfl
  · obtain ⟨r, hrun, hroot, -⟩ : ∃ r, merkleComputation hash256 leaves (2 ^ 32 - 1) false = some r ∧
        (r.root, r.mutated) = Chratos.computeMerkleRoot hash256 leaves ∧
        (false = true → r.branch = siblings hash256 leaves _ (Nat.clog 2 leaves.length)) :=
      exists_merkleComputation hne hlength false nofun
    rw [computeMerkleRoot, hrun, ← hroot]
    rfl

theorem computeMerkleBranch_eq (hlength : leaves.length ≤ 2 ^ 31) (hi : i < leaves.length) :
    computeMerkleBranch hash256 leaves i =
      some (siblings hash256 leaves i (Nat.clog 2 leaves.length)) := by
  have hne : leaves ≠ [] := ne_nil_of_length_pos (by omega)
  obtain ⟨r, hrun, -, hbranch⟩ := exists_merkleComputation hne hlength true fun _ => hi
  rw [computeMerkleBranch, hrun, ← hbranch rfl]
  rfl

/-- Along the siblings of a leaf the way leads over the nodes above it. -/
theorem foldl_siblings (hi : i < leaves.length) (k : Nat) :
    (siblings hash256 leaves i k).foldl (fun (hash, nIndex) it =>
        (if nIndex % 2 = 1 then hashPair hash256 it hash else hashPair hash256 hash it, nIndex / 2))
      (node (hashPair hash256) leaves 0 i, i) =
      (node (hashPair hash256) leaves k (i / 2 ^ k), i / 2 ^ k) := by
  induction k with
  | zero => rw [pow_zero, Nat.div_one]; rfl
  | succ k ih =>
    have hin : i / 2 ^ k * 2 ^ k < leaves.length := lt_of_le_of_lt (Nat.div_mul_le_self i _) hi
    rw [siblings_succ, foldl_append, ih, pow_succ, ← Nat.div_div_eq_div_mul,
      node_succ_div k hin]
    rfl

end MerkleMachine

end Chratos
