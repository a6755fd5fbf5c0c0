import Chratos.Properties.DividendAccounting
import Mathlib.Algebra.Order.Field.Basic
import Mathlib.Data.Rat.Cast.Order

/-!
# Chratos — the threshold of a dividend (`dividend/dividend.cpp`: `DoesExceedThreshold`)

Contributions that are too small to be paid are to wait until, together with the next ones, they
reach `DIVIDEND_THRESHOLD`. The function that adds up the priors begins with `if (!tx.isImmature())
{ return false; }`, and its caller asks it only about mature contributions, so the sum is never
taken.
-/

namespace Chratos

/-- `amount / (supply - amount)` against `DIVIDEND_THRESHOLD`, as fractions. -/
def Reaches (amount supply : Int) : Prop :=
  (1 / 10000 : ℚ) ≤ (amount : ℚ) / ((supply - amount : Int) : ℚ)

variable {amount supply : Int}

theorem reaches_iff_of_lt (h : amount < supply) :
    Reaches amount supply ↔ supply - amount ≤ amount * 10000 := by
  have hpos : (0 : ℚ) < ((supply - amount : Int) : ℚ) := by
    exact_mod_cast sub_pos.mpr h
  unfold Reaches
  rw [le_div_iff₀ hpos, div_mul_eq_mul_div, one_mul, div_le_iff₀ (by norm_num)]
  exact_mod_cast Iff.rfl

/-- With a negative rest the comparison turns around. -/
theorem reaches_iff_of_gt (h : supply < amount) :
    Reaches amount supply ↔ amount * 10000 ≤ supply - amount := by
  have hneg : ((supply - amount : Int) : ℚ) < 0 := by
    exact_mod_cast sub_neg.mpr h
  unfold Reaches
  rw [le_div_iff_of_neg hneg, div_mul_eq_mul_div, one_mul, le_div_iff₀ (by norm_num)]
  exact_mod_cast Iff.rfl

/-- The model's comparison is the one of fractions. -/
theorem exact_ge_iff (hne : amount ≠ supply) :
    Threshold.exact.ge amount supply = true ↔ Reaches amount supply := by
  rcases lt_or_gt_of_ne hne with hlt | hgt
  · rw [reaches_iff_of_lt hlt]
    simp [Threshold.exact, hlt]
  · rw [reaches_iff_of_gt hgt]
    have hrest : ¬ amount < supply := not_lt.mpr hgt.le
    have hzero : supply - amount ≠ 0 := by omega
    simp [Threshold.exact, hrest, hzero]

namespace DividendView

/-- The credit of a contribution with those of all contributions since the last payout. -/
def totalSinceLastPaid (v : DividendView) (d : CDividendTx) : Int := d.credit + v.creditSinceLastPaid d

/-- **When small contributions accumulate.** Let the comparison of doubles come out right for the
credit of a mature contribution, and its total be a part of the supply. The contribution is then
treated by the cumulative rule exactly if it makes up a 10001st of the supply by itself, or if its
total does not: what waits in the ledger decides nothing in either case. -/
theorem doesExceedThreshold_cumulative_iff (v : DividendView) {d : CDividendTx}
    (hmature : v.isMature d = true)
    (hround : v.threshold.ge d.credit (v.getCoinSupply d) = true ↔ Reaches d.credit (v.getCoinSupply d))
    (hcredits : ∀ x ∈ v.mapLedger, 0 ≤ x.credit)
    (hsupply : v.totalSinceLastPaid d < v.getCoinSupply d) :
    (v.doesExceedThreshold d = true ↔ Reaches (v.totalSinceLastPaid d) (v.getCoinSupply d)) ↔
      v.getCoinSupply d ≤ d.credit * 10001 ∨ v.totalSinceLastPaid d * 10001 < v.getCoinSupply d := by
  have hsolo : v.doesExceedThreshold d = v.threshold.ge d.credit (v.getCoinSupply d) := by
    rw [doesExceedThreshold_eq, exceedsThresholdSolo, isImmature_eq_false.mpr hmature]
    rfl
  have hpriors : 0 ≤ v.creditSinceLastPaid d := by
    refine List.sum_nonneg fun credit hcredit => ?_
    obtain ⟨x, hx, rfl⟩ := List.mem_map.mp hcredit
    exact hcredits x (List.mem_of_mem_filter hx)
  have hle : d.credit ≤ v.totalSinceLastPaid d := le_add_of_nonneg_right hpriors
  rw [hsolo, hround, reaches_iff_of_lt (hle.trans_lt hsupply), reaches_iff_of_lt hsupply]
  omega

/-- A small contribution with a large one after it. -/
def smallThenLarge : DividendView := ledgerView [smallContribution, largeContribution 2 2]

/-- The large one is paid, with or without the small one. -/
theorem doesExceedThreshold_cumulative_large :
    smallThenLarge.doesExceedThreshold (largeContribution 2 2) = true ∧
    (smallThenLarge.doesExceedThreshold (largeContribution 2 2) = true ↔
      Reaches (smallThenLarge.totalSinceLastPaid (largeContribution 2 2))
        (smallThenLarge.getCoinSupply (largeContribution 2 2))) := by
  have hcredit : smallThenLarge.creditSinceLastPaid (largeContribution 2 2) = COIN := by decide +kernel
  have hsupply :
    smallThenLarge.getCoinSupply (largeContribution 2 2) = 946728 * COIN := by decide +kernel
  refine ⟨by decide +kernel, ?_⟩
  refine (doesExceedThreshold_cumulative_iff smallThenLarge (by decide) ?_ ?_ ?_).mpr (.inl ?_)
  · rw [hsupply]
    exact exact_ge_iff (by decide)
  · decide
  · rw [totalSinceLastPaid, hcredit, hsupply]
    decide
  · rw [hsupply]
    decide

/-! ## Two contributions that reach the threshold together -/

/-- Contributions of 100 coins at heights 5 and 6; the supply when the second matures is 1262304
coins. -/
def halfContributions : List CDividendTx := [⟨1, 5, 100 * COIN⟩, ⟨2, 6, 100 * COIN⟩]

/-- Neither is paid by itself, and the second is not paid although both together reach the threshold. -/
theorem contributions_never_accumulate : (ledgerView halfContributions).OneChain ∧
    (halfContributions.Pairwise fun a b => a.height ≠ b.height) ∧
    (∀ d ∈ halfContributions, (ledgerView halfContributions).isMature d = true ∧
      (ledgerView halfContributions).doesExceedThreshold d = false) ∧
    (ledgerView halfContributions).totalSinceLastPaid ⟨2, 6, 100 * COIN⟩ = 200 * COIN ∧
    Reaches (200 * COIN) ((ledgerView halfContributions).getCoinSupply ⟨2, 6, 100 * COIN⟩) := by
  have hsupply : (ledgerView halfContributions).getCoinSupply ⟨2, 6, 100 * COIN⟩ = 1262304 * COIN := by
    decide +kernel
  refine ⟨ledgerView_oneChain (by decide) (by decide), by decide, by decide +kernel, by
    decide +kernel, ?_⟩
  rw [hsupply, reaches_iff_of_lt (by decide)]
  decide

end DividendView

end Chratos
