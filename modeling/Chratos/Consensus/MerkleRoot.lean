import Chratos.Consensus.Merkle
import Chratos.Primitives.Encoding
import Chratos.Lib.MerkleTree
import Mathlib.Data.Set.Function

/-!
# Chratos — what a merkle root determines

The constant-space computation of `consensus/merkle.cpp` is the binary tree of `MerkleTree`: level
`k` of the counter is the root of a complete subtree of height `k`, the levels from the top down are
the leaves from the left to the right (`Counts`), a carry joins two complete siblings and the sweep
repeats the rightmost subtree where its sibling is missing.
-/

namespace Chratos

open MerkleTree Codec List

variable {hash256 : List UInt8 → Uint256}

/-! ## The counter -/

/-- The counter from level `k` up stands for the leaves seen so far, with the flag. -/
def Counts (hash256 : List UInt8 → Uint256) : Nat → List (Option Uint256) → List Uint256 → Bool → Prop
  | _, [], leaves, mutated => leaves = [] ∧ mutated = false
  | k, none :: inner, leaves, mutated => inner ≠ [] ∧ Counts hash256 (k + 1) inner leaves mutated
  | k, some h :: inner, leaves, mutated => ∃ before last mutated',
      leaves = before ++ last ∧ last.length = 2 ^ k ∧ h = root (hashPair hash256) k last ∧
      mutated = (mutated' || twins (hashPair hash256) k last) ∧
      Counts hash256 (k + 1) inner before mutated'

variable {leaves : List Uint256} {inner : List (Option Uint256)} {k : Nat} {mutated : Bool}
  {h : Uint256} {right : List Uint256}

/-- A complete subtree of height `k` is carried in from the right. -/
theorem addLeaf_counts {last : List Uint256} (hcount : Counts hash256 k inner leaves mutated)
    (hlen : last.length = 2 ^ k) (hroot : h = root (hashPair hash256) k last) :
    (addLeaf hash256 inner h (mutated || twins (hashPair hash256) k last)).1 ≠ [] ∧
    Counts hash256 k (addLeaf hash256 inner h (mutated || twins (hashPair hash256) k last)).1
      (leaves ++ last) (addLeaf hash256 inner h (mutated || twins (hashPair hash256) k last)).2 := by
  induction inner generalizing k leaves last h mutated with
  | nil =>
    obtain ⟨rfl, rfl⟩ := hcount
    exact ⟨nofun, [], last, false, rfl, hlen, hroot, rfl, rfl, rfl⟩
  | cons slot inner ih =>
    cases slot with
    | none =>
      obtain ⟨-, hcount⟩ := hcount
      exact ⟨nofun, leaves, last, mutated, rfl, hlen, hroot, rfl, hcount⟩
    | some a =>
      obtain ⟨before, sibling, mutated', rfl, hsibling, ha, rfl, hcount⟩ := hcount
      have hpos := Nat.two_pow_pos k
      have hjoin : (sibling ++ last).length = 2 ^ (k + 1) := by
        rw [length_append]
        omega
      have hpair : hashPair hash256 a h = root (hashPair hash256) (k + 1) (sibling ++ last) := by
        rw [root_append hsibling (ne_nil_of_length_pos (by omega)), ha, hroot]
      -- The comparison on the way up is the one between the two siblings.
      have hflag : (mutated' || twins (hashPair hash256) k sibling ||
            twins (hashPair hash256) k last || a == h) =
          (mutated' || twins (hashPair hash256) (k + 1) (sibling ++ last)) := by
        rw [twins_append hsibling hlen, ha, hroot]
        simp only [Bool.or_assoc]
      have hnext := ih hcount hjoin hpair
      rw [← hflag] at hnext
      rw [append_assoc]
      exact ⟨nofun, hnext⟩

/-- The fold over the leaves keeps the count, from any leaves seen before. -/
theorem foldl_addLeaf_counts (leaves : List Uint256) :
    ∀ {seen : List Uint256} {r : List (Option Uint256) × Bool}, Counts hash256 0 r.1 seen r.2 →
      Counts hash256 0 (leaves.foldl (fun r h => addLeaf hash256 r.1 h r.2) r).1 (seen ++ leaves)
        (leaves.foldl (fun r h => addLeaf hash256 r.1 h r.2) r).2 := by
  induction leaves with
  | nil =>
    intro seen r h
    rw [append_nil]
    exact h
  | cons leaf leaves ih =>
    intro seen r h
    have hleaf := (addLeaf_counts h (show [leaf].length = 2 ^ 0 from rfl) rfl).2
    rw [twins, Bool.or_false] at hleaf
    rw [append_cons]
    exact ih hleaf

/-! ## The sweep -/

theorem add_length_cons {α : Type} (k : Nat) (x : α) (l : List α) :
    k + (x :: l).length = k + 1 + l.length := by
  rw [length_cons]
  omega

/-- The leaves below a level, short of it, and the leaves above. -/
theorem Counts.lt_length (h : Counts hash256 k inner leaves mutated) (hne : inner ≠ []) :
    2 ^ (k + inner.length - 1) ≤ leaves.length ∧ leaves.length + 2 ^ k ≤ 2 ^ (k + inner.length) := by
  induction inner generalizing k leaves mutated with
  | nil => exact absurd rfl hne
  | cons slot inner ih =>
    have hpos := Nat.two_pow_pos k
    rw [add_length_cons]
    cases slot with
    | none =>
      obtain ⟨hinner, hcount⟩ := h
      have := ih hcount hinner
      omega
    | some a =>
      obtain ⟨before, last, mutated', rfl, hlast, -, -, hcount⟩ := h
      rw [length_append]
      cases inner with
      | nil =>
        obtain ⟨rfl, -⟩ := hcount
        simp only [length_nil, Nat.add_zero, Nat.add_sub_cancel]
        omega
      | cons slot inner =>
        have := ih hcount nofun
        omega

/-- Above the lowest level: `h` is the root of all leaves to the right of `leaves`. -/
theorem sweepUp_eq (hcount : Counts hash256 k inner leaves mutated) (hright : right ≠ [])
    (hlen : right.length ≤ 2 ^ k) (hroot : h = root (hashPair hash256) k right) :
    sweepUp hash256 inner h = root (hashPair hash256) (k + inner.length) (leaves ++ right) := by
  induction inner generalizing k leaves right h mutated with
  | nil =>
    obtain ⟨rfl, -⟩ := hcount
    exact hroot
  | cons slot inner ih =>
    rw [add_length_cons]
    cases slot with
    | none =>
      exact ih hcount.2 hright (by omega) (by rw [root_succ_le hlen, hroot])
    | some a =>
      obtain ⟨before, last, mutated', rfl, hlast, ha, -, hcount⟩ := hcount
      rw [append_assoc]
      refine ih hcount (by simp [hright]) ?_ (by rw [root_append hlast hright, ha, hroot])
      rw [length_append]
      omega

/-- The height of the tree. -/
theorem clog_eq {n d : Nat} (hlow : 2 ^ d < n) (hhigh : n ≤ 2 ^ (d + 1)) : Nat.clog 2 n = d + 1 := by
  refine le_antisymm (Nat.clog_le_of_le_pow hhigh) ?_
  exact (Nat.lt_clog_iff_pow_lt (by decide)).mpr hlow

theorem sweep_eq (hcount : Counts hash256 k inner leaves mutated) (hne : inner ≠ []) :
    sweep hash256 inner = root (hashPair hash256) (Nat.clog 2 leaves.length) leaves := by
  induction inner generalizing k with
  | nil => exact absurd rfl hne
  | cons slot inner ih =>
    cases slot with
    | none => exact ih hcount.2 hcount.1
    | some h =>
      obtain ⟨before, last, mutated', rfl, hlast, hroot, -, hcount⟩ := hcount
      cases inner with
      | nil =>
        obtain ⟨rfl, -⟩ := hcount
        rw [nil_append, hlast, Nat.clog_pow 2 k (by decide)]
        exact hroot
      | cons slot inner =>
        have hpos := Nat.two_pow_pos k
        have hbounds := hcount.lt_length nofun
        have hlow : 2 ^ (k + 1 + inner.length) < (before ++ last).length := by
          have : k + 1 + (slot :: inner).length - 1 = k + 1 + inner.length := by
            rw [length_cons]
            omega
          rw [this] at hbounds
          rw [length_append]
          omega
        have hhigh : (before ++ last).length ≤ 2 ^ (k + 1 + inner.length + 1) := by
          have : k + 1 + (slot :: inner).length = k + 1 + inner.length + 1 := rfl
          rw [this] at hbounds
          rw [length_append]
          omega
        rw [clog_eq hlow hhigh]
        exact sweepUp_eq hcount (ne_nil_of_length_pos (by omega)) (by omega)
          (by rw [root_succ_le hlast.le, hroot])

/-- The flag covers all complete siblings; `right` is what the counter does not hold yet. -/
theorem Counts.mutated_eq (hcount : Counts hash256 k inner leaves mutated)
    (hlen : right.length < 2 ^ k) : (mutated || twins (hashPair hash256) k right) =
      twins (hashPair hash256) (k + inner.length) (leaves ++ right) := by
  induction inner generalizing k leaves right mutated with
  | nil =>
    obtain ⟨rfl, rfl⟩ := hcount
    rfl
  | cons slot inner ih =>
    rw [add_length_cons]
    cases slot with
    | none =>
      rw [← ih hcount.2 (by omega), twins_of_le hlen.le (Nat.le_succ k)]
    | some a =>
      obtain ⟨before, last, mutated', rfl, hlast, -, rfl, hcount⟩ := hcount
      have hjoin : (last ++ right).length < 2 ^ (k + 1) := by
        rw [length_append]
        omega
      rw [append_assoc, ← ih hcount hjoin, twins_append_of_lt hlast hlen, Bool.or_assoc]

/-- **The computation is the tree**: its root and its flag. -/
theorem computeMerkleRoot_eq (hne : leaves ≠ []) : computeMerkleRoot hash256 leaves =
      (root (hashPair hash256) (Nat.clog 2 leaves.length) leaves,
        twins (hashPair hash256) (Nat.clog 2 leaves.length) leaves) := by
  have hcount := @foldl_addLeaf_counts hash256 leaves [] ([], false) ⟨rfl, rfl⟩
  rw [nil_append] at hcount
  rw [computeMerkleRoot]
  generalize leaves.foldl (fun r h => addLeaf hash256 r.1 h r.2) ([], false) = r at hcount ⊢
  have hinner : r.1 ≠ [] := by
    intro hnil
    rw [hnil] at hcount
    exact hne hcount.1
  have hflag := hcount.mutated_eq (show ([] : List Uint256).length < 2 ^ 0 from zero_lt_one)
  rw [twins, Bool.or_false, append_nil, zero_add] at hflag
  have hclog : Nat.clog 2 leaves.length ≤ r.1.length := by
    have := (hcount.lt_length hinner).2
    rw [zero_add] at this
    exact Nat.clog_le_of_le_pow (by omega)
  rw [sweep_eq hcount hinner, hflag, twins_of_le (Nat.le_pow_clog (by decide) _) hclog]

/-! ## What the root determines -/

/-- The strings hashed for the nodes. -/
def merkleStrings (hash256 : List UInt8 → Uint256) (leaves : List Uint256) : List (List UInt8) :=
  (nodes (hashPair hash256) (Nat.clog 2 leaves.length) leaves).map
    fun p => serUint256 p.1 ++ serUint256 p.2

theorem length_merkleStrings {s : List UInt8} (h : s ∈ merkleStrings hash256 leaves) :
    s.length = 64 := by
  obtain ⟨p, -, rfl⟩ := mem_map.mp h
  rw [length_append, serUint256, serUint256, length_leBytes, length_leBytes]

section

variable {S : Set (List UInt8)} {xs ys : List Uint256}

section

variable (hinj : S.InjOn hash256) (hx : ∀ s ∈ merkleStrings hash256 xs, s ∈ S)
  (hy : ∀ s ∈ merkleStrings hash256 ys, s ∈ S)
include hinj hx hy

/-- Where the hash is injective on the strings, the nodes do not collide. -/
theorem apart_of_injOn :
    Apart (hashPair hash256) (nodes (hashPair hash256) (Nat.clog 2 xs.length) xs)
      (nodes (hashPair hash256) (Nat.clog 2 ys.length) ys) := by
  intro p hp q hq heq
  have hstrings := hinj (hx _ (mem_map_of_mem hp)) (hy _ (mem_map_of_mem hq)) heq
  obtain ⟨hleft, hright⟩ := determines_serUint256 trivial trivial hstrings
  exact Prod.ext hleft (determines_serUint256.view_eq trivial trivial hright)

/-- **Lists of one length** have different roots. -/
theorem computeMerkleRoot_inj_of_length (hlen : xs.length = ys.length)
    (heq : (computeMerkleRoot hash256 xs).1 = (computeMerkleRoot hash256 ys).1) : xs = ys := by
  have hapart := apart_of_injOn hinj hx hy
  cases xs with
  | nil => exact (length_eq_zero_iff.mp hlen.symm).symm
  | cons x xs =>
    have hne : ys ≠ [] := ne_nil_of_length_pos (hlen ▸ Nat.succ_pos _)
    rw [computeMerkleRoot_eq hne, computeMerkleRoot_eq (cons_ne_nil x xs), ← hlen] at heq
    rw [← hlen] at hapart
    exact root_inj_of_length hlen (Nat.le_pow_clog (by decide) _) hapart heq

end

/-- A leaf that is the hash of a string no node has is no node. -/
theorem headD_ne_node (hinj : S.InjOn hash256) (hy : ∀ s ∈ merkleStrings hash256 ys, s ∈ S)
    {s : List UInt8} (hs : s ∈ S) (hlen : s.length ≠ 64) (hhead : xs.head? = some (hash256 s)) :
    ∀ q ∈ nodes (hashPair hash256) (Nat.clog 2 ys.length) ys,
      xs.headD default ≠ hashPair hash256 q.1 q.2 := by
  intro q hq hnode
  have hmem : serUint256 q.1 ++ serUint256 q.2 ∈ merkleStrings hash256 ys := mem_map_of_mem hq
  rw [headD_eq_head?_getD, hhead, Option.getD_some] at hnode
  have hstring := hinj hs (hy _ hmem) hnode
  rw [hstring] at hlen
  exact hlen (length_merkleStrings hmem)

/-- **Lists that are not flagged** have different roots, if their first leaves are not the hashes of
strings that a node could have. -/
theorem computeMerkleRoot_inj (hinj : S.InjOn hash256)
    (hx : ∀ s ∈ merkleStrings hash256 xs, s ∈ S) (hy : ∀ s ∈ merkleStrings hash256 ys, s ∈ S)
    (hheadx : ∃ s ∈ S, s.length ≠ 64 ∧ xs.head? = some (hash256 s))
    (hheady : ∃ s ∈ S, s.length ≠ 64 ∧ ys.head? = some (hash256 s))
    (hflagx : (computeMerkleRoot hash256 xs).2 = false)
    (hflagy : (computeMerkleRoot hash256 ys).2 = false)
    (heq : (computeMerkleRoot hash256 xs).1 = (computeMerkleRoot hash256 ys).1) : xs = ys := by
  obtain ⟨s, hs, hlens, hheads⟩ := hheadx
  obtain ⟨t, ht, hlent, hheadt⟩ := hheady
  have hnex : xs ≠ [] := ne_nil_of_mem (mem_of_head? hheads)
  have hney : ys ≠ [] := ne_nil_of_mem (mem_of_head? hheadt)
  rw [computeMerkleRoot_eq hnex, computeMerkleRoot_eq hney] at heq
  rw [computeMerkleRoot_eq hnex] at hflagx
  rw [computeMerkleRoot_eq hney] at hflagy
  exact root_inj_of_heads (apart_of_injOn hinj hx hy)
    (headD_ne_node hinj hy hs hlens hheads) heq hnex hney
    (headD_ne_node hinj hx ht hlent hheadt) hflagx hflagy

end

end Chratos
