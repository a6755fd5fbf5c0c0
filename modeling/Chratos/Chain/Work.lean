import Mathlib.Algebra.GroupWithZero.Nat
import Mathlib.Data.Nat.Basic
import Mathlib.Tactic.Ring

/-!
# Chratos — what a header's target is worth (`arith_uint256.cpp`, `chain.cpp`)

`2 ^ 256` itself is no 256-bit number. `getBlockProof_spec` says that the sum the code computes
instead is the exact quotient, for every `nBits`, and that no step of it wraps around. The division
is a loop that shifts and subtracts; `divide_eq` shows that it is the quotient.
-/

namespace Chratos

/-- `arith_uint256::SetCompact`: the target, `fNegative` and `fOverflow`. -/
def arithSetCompact (nBits : UInt32) : Nat × Bool × Bool :=
  let nSize := nBits.toNat / 2 ^ 24
  let nWord := if nSize ≤ 3 then nBits.toNat % 2 ^ 23 / 256 ^ (3 - nSize)
    else nBits.toNat % 2 ^ 23
  (if nSize ≤ 3 then nWord else nWord * 256 ^ (nSize - 3) % 2 ^ 256,
    nWord ≠ 0 ∧ 2 ^ 23 ≤ nBits.toNat % 2 ^ 24,
    nWord ≠ 0 ∧ (34 < nSize ∨ (0xff < nWord ∧ 33 < nSize) ∨ (0xffff < nWord ∧ 32 < nSize)))

/-- `base_uint::bits`: the position of the highest bit that is set, plus one. -/
def bits (n : Nat) : Nat := if n = 0 then 0 else n.log2 + 1

/-- The loop of `base_uint::operator/=`, with so many rounds left. -/
def divideLoop : Nat → Nat → Nat → Nat → Nat
  | 0, _, _, quotient => quotient
  | shift + 1, num, div, quotient =>
    if div ≤ num then divideLoop shift (num - div) (div / 2) (quotient ||| 2 ^ shift)
    else divideLoop shift num (div / 2) quotient

/-- `base_uint::operator/=` on 256 bits; a division by zero throws. -/
def divide (num b : Nat) : Option Nat :=
  if bits b = 0 then none
  else if bits num < bits b then some 0
  else
    let shift := bits num - bits b
    some (divideLoop (shift + 1) num (b * 2 ^ shift % 2 ^ 256) 0)

/-- `GetBlockProof`: `2 ^ 256 / (bnTarget + 1)`, written so that it fits into 256 bits. The divisor is
never zero, so that nothing is thrown. -/
def getBlockProof (nBits : UInt32) : Nat :=
  let (bnTarget, fNegative, fOverflow) := arithSetCompact nBits
  if fNegative || fOverflow || bnTarget = 0 then 0
  else ((divide (2 ^ 256 - 1 - bnTarget) ((bnTarget + 1) % 2 ^ 256)).getD 0 + 1) % 2 ^ 256

/-! ## The division

Before the round of a shift, `div` is the divisor moved by it, what is left of the number is below
twice that, and only higher bits of the quotient are set. -/

theorem divideLoop_eq {b : Nat} (hb : 0 < b) (rounds : Nat) : ∀ num a, num < b * 2 ^ rounds →
    divideLoop rounds num (b * 2 ^ rounds / 2) (2 ^ rounds * a) = 2 ^ rounds * a + num / b := by
  induction rounds with
  | zero =>
    intro num a hlt
    rw [pow_zero, mul_one] at hlt
    rw [divideLoop, Nat.div_eq_of_lt hlt, add_zero]
  | succ shift ih =>
    intro num a hlt
    have hdiv : b * 2 ^ (shift + 1) / 2 = b * 2 ^ shift := by
      rw [pow_succ, ← mul_assoc, Nat.mul_div_cancel _ Nat.two_pos]
    rw [pow_succ, ← mul_assoc] at hlt
    rw [divideLoop, hdiv]
    split
    · rename_i hle
      -- a fresh bit, so that the disjunction is a sum
      have hset : 2 ^ (shift + 1) * a ||| 2 ^ shift = 2 ^ shift * (2 * a + 1) := by
        rw [← Nat.two_pow_add_eq_or_of_lt (Nat.pow_lt_pow_succ one_lt_two)]
        ring
      rw [hset, ih _ _ (by omega)]
      obtain ⟨rest, rfl⟩ := Nat.exists_eq_add_of_le hle
      rw [Nat.add_sub_cancel_left, Nat.mul_add_div hb]
      ring
    · rename_i hgt
      have hkeep : 2 ^ (shift + 1) * a = 2 ^ shift * (2 * a) := by ring
      rw [hkeep, ih _ _ (by omega)]

theorem lt_two_pow_bits (n : Nat) : n < 2 ^ bits n := by
  unfold bits
  split
  · omega
  · exact Nat.lt_log2_self

theorem two_pow_le_of_lt_bits {n k : Nat} (h : k < bits n) : 2 ^ k ≤ n := by
  unfold bits at h
  split at h
  · omega
  · rename_i hne
    exact (Nat.pow_le_pow_right two_pos (by omega)).trans (Nat.log2_self_le hne)

/-- **The loop divides.** -/
theorem divide_eq {num b : Nat} (hnum : num < 2 ^ 256) (hb : 0 < b) :
    divide num b = some (num / b) := by
  have hbits : bits b ≠ 0 := by simp [bits, hb.ne']
  rw [divide, if_neg hbits]
  split
  · rename_i hlt
    rw [Nat.div_eq_of_lt ((lt_two_pow_bits num).trans_le (two_pow_le_of_lt_bits hlt))]
  · rename_i hge
    generalize hshift : bits num - bits b = shift
    have hwidth : bits num ≤ 256 := by
      by_contra hwide
      exact hnum.not_ge (two_pow_le_of_lt_bits (not_le.mp hwide))
    -- the shifted divisor is as wide as the number
    have hfits : b * 2 ^ shift < 2 ^ 256 := by
      calc b * 2 ^ shift < 2 ^ bits b * 2 ^ shift :=
            mul_lt_mul_of_pos_right (lt_two_pow_bits b) (Nat.two_pow_pos shift)
        _ = 2 ^ bits num := by rw [← pow_add]; congr 1; omega
        _ ≤ 2 ^ 256 := Nat.pow_le_pow_right two_pos hwidth
    have hlt : num < b * 2 ^ (shift + 1) := by
      calc num < 2 ^ bits num := lt_two_pow_bits num
        _ = 2 ^ (bits b - 1) * 2 ^ (shift + 1) := by rw [← pow_add]; congr 1; omega
        _ ≤ b * 2 ^ (shift + 1) := Nat.mul_le_mul_right _ (two_pow_le_of_lt_bits (by omega))
    have hloop := divideLoop_eq hb (shift + 1) num 0 hlt
    rw [pow_succ, ← mul_assoc, Nat.mul_div_cancel _ Nat.two_pos, mul_zero,
      zero_add] at hloop
    show some (divideLoop (shift + 1) num (b * 2 ^ shift % 2 ^ 256) 0) = some (num / b)
    rw [Nat.mod_eq_of_lt hfits, hloop]

/-- `nBits` decodes to the target `t`, which is positive and neither negative nor too large. -/
def Decodes (nBits : UInt32) (t : Nat) : Prop :=
  arithSetCompact nBits = (t, false, false) ∧ 0 < t

variable {nBits : UInt32} {t : Nat}

/-- The increment of a target does not wrap around: a target that was shifted ends in a zero byte. -/
theorem arithSetCompact_add_one_lt (nBits : UInt32) : (arithSetCompact nBits).1 + 1 < 2 ^ 256 := by
  dsimp only [arithSetCompact]
  split
  · exact Nat.lt_of_le_of_lt (Nat.succ_le_succ (Nat.div_le_self _ _)) (by omega)
  · rename_i hsize
    obtain ⟨k, hk⟩ := Nat.exists_eq_add_one.mpr (Nat.sub_pos_of_lt (Nat.lt_of_not_le hsize))
    rw [hk, @Nat.pow_succ 256, ← Nat.mul_assoc]
    omega

theorem Decodes.getBlockProof_eq (h : Decodes nBits t) : getBlockProof nBits = 2 ^ 256 / (t + 1) := by
  have hlt := arithSetCompact_add_one_lt nBits
  rw [h.1] at hlt
  have hne : t ≠ 0 := ne_of_gt h.2
  have hsum : (2 ^ 256 - 1 - t) / (t + 1) + 1 = 2 ^ 256 / (t + 1) := by
    rw [← Nat.add_div_right _ t.succ_pos]
    congr 1
    omega
  simp only [getBlockProof, h.1, Bool.or_self, Bool.false_or, decide_eq_true_eq, if_neg hne]
  rw [Nat.mod_eq_of_lt hlt, divide_eq (by omega) t.succ_pos, Option.getD_some, hsum]
  exact Nat.mod_eq_of_lt (Nat.div_lt_self (by decide) (Nat.succ_lt_succ h.2))

theorem getBlockProof_eq_zero (h : ¬∃ t, Decodes nBits t) : getBlockProof nBits = 0 := by
  unfold getBlockProof
  split
  rename_i bnTarget fNegative fOverflow heq
  refine if_pos (Decidable.byContradiction fun hno => h ⟨bnTarget, ?_⟩)
  simp only [Bool.or_eq_true, decide_eq_true_eq, not_or, Bool.not_eq_true] at hno
  obtain ⟨⟨rfl, rfl⟩, hne⟩ := hno
  exact ⟨heq, pos_of_ne_zero hne⟩

theorem getBlockProof_spec : (∀ nBits t, Decodes nBits t →
      t + 1 < 2 ^ 256 ∧ getBlockProof nBits = 2 ^ 256 / (t + 1) ∧ getBlockProof nBits < 2 ^ 256) ∧
    (∀ nBits, (¬∃ t, Decodes nBits t) → getBlockProof nBits = 0) ∧
    ∀ nBits nBits' t t', Decodes nBits t → Decodes nBits' t' → t ≤ t' →
      getBlockProof nBits' ≤ getBlockProof nBits := by
  refine ⟨fun nBits t h => ⟨?_, h.getBlockProof_eq, ?_⟩, fun _ => getBlockProof_eq_zero,
    fun nBits nBits' t t' h h' hle => ?_⟩
  · have hlt := arithSetCompact_add_one_lt nBits
    rwa [h.1] at hlt
  · rw [h.getBlockProof_eq]
    exact Nat.div_lt_self (by decide) (Nat.succ_lt_succ h.2)
  · rw [h.getBlockProof_eq, h'.getBlockProof_eq]
    exact Nat.div_le_div_left (Nat.succ_le_succ hle) t.succ_pos

end Chratos
