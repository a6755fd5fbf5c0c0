import Chratos.FeeRate
import Mathlib.Data.List.Induction

/-!
# Chratos — the rolling minimum fee (`txmempool.cpp`)

`TrimToSize` raises the minimum to the rate of each package it removes, plus
`minReasonableRelayFee`. The rate is stored by `GetFeePerK`, the fee for 10000 bytes, and read back
as one per 1000: it comes out tenfold.
-/

namespace Chratos

open List

/-- The rate is a double, which holds an integer until it decays. -/
structure RollingFee where
  minReasonableRelayFee : CFeeRate
  rollingMinimumFeeRate : Int
  blockSinceLastRollingFeeBump : Bool
  lastRollingFeeUpdate : Int

def ROLLING_FEE_HALFLIFE : Int := 60 * 60 * 12

namespace RollingFee

/-- `decay` stands for the division by a power of two, in doubles. -/
def getMinFee (decay : Int → Int → Int → Int) (time : Int) (usage sizelimit : Nat) (pool : RollingFee) :
    CFeeRate × RollingFee :=
  let atLeast (rate : Int) : CFeeRate := ⟨max rate pool.minReasonableRelayFee.nSatoshisPerK⟩
  if !pool.blockSinceLastRollingFeeBump ∨ pool.rollingMinimumFeeRate = 0 then
    (⟨pool.rollingMinimumFeeRate⟩, pool)
  else if time > pool.lastRollingFeeUpdate + 10 then
    let halflife := if usage < sizelimit / 4 then ROLLING_FEE_HALFLIFE / 4
      else if usage < sizelimit / 2 then ROLLING_FEE_HALFLIFE / 2 else ROLLING_FEE_HALFLIFE
    let rate := decay pool.rollingMinimumFeeRate (time - pool.lastRollingFeeUpdate) halflife
    if rate < pool.minReasonableRelayFee.getFeePerK.tdiv 2 then
      (⟨0⟩, { pool with rollingMinimumFeeRate := 0, lastRollingFeeUpdate := time })
    else (atLeast rate, { pool with rollingMinimumFeeRate := rate, lastRollingFeeUpdate := time })
  else (atLeast pool.rollingMinimumFeeRate, pool)

def trackPackageRemoved (pool : RollingFee) (rate : CFeeRate) : RollingFee :=
  if rate.getFeePerK > pool.rollingMinimumFeeRate then
    { pool with rollingMinimumFeeRate := rate.getFeePerK, blockSinceLastRollingFeeBump := false }
  else pool

/-- What a removed package, of some modified fees and size, lifts the rate to. -/
def removedRate (pool : RollingFee) (package : Int × Nat) : CFeeRate :=
  (CFeeRate.ofFeePaid package.1 package.2).add pool.minReasonableRelayFee

/-- `TrimToSize`, by the packages it removes. -/
def trimToSize (pool : RollingFee) (packages : List (Int × Nat)) : RollingFee :=
  packages.foldl (fun pool package => pool.trackPackageRemoved (pool.removedRate package)) pool

variable (pool : RollingFee) (packages : List (Int × Nat))

/-- The minimum is left alone, or lifted to what the best of the packages is worth. -/
theorem trimToSize_spec :
    (pool.trimToSize packages).minReasonableRelayFee = pool.minReasonableRelayFee ∧
    (∀ p ∈ packages,
      (pool.removedRate p).getFeePerK ≤ (pool.trimToSize packages).rollingMinimumFeeRate) ∧
    (pool.trimToSize packages = pool ∨
      (pool.trimToSize packages).blockSinceLastRollingFeeBump = false ∧
      ∃ p ∈ packages, (pool.trimToSize packages).rollingMinimumFeeRate =
        (pool.removedRate p).getFeePerK) := by
  induction packages using reverseRecOn with
  | nil => exact ⟨rfl, by simp, .inl rfl⟩
  | append_singleton packages p ih =>
    obtain ⟨hmin, hle, hcases⟩ := ih
    have hrate : (pool.trimToSize packages).removedRate p = pool.removedRate p := by
      rw [removedRate, hmin, removedRate]
    have hstep : pool.trimToSize (packages ++ [p]) =
        (pool.trimToSize packages).trackPackageRemoved (pool.removedRate p) := by
      rw [← hrate, trimToSize, foldl_append]
      rfl
    rw [hstep]
    unfold trackPackageRemoved
    split
    · next hlift =>
      refine ⟨hmin, ?_, .inr ⟨rfl, p, by simp, rfl⟩⟩
      simp only [forall_mem_append, forall_mem_singleton]
      exact ⟨fun q hq => (hle q hq).trans hlift.le, le_rfl⟩
    · next hlow =>
      refine ⟨hmin, ?_, hcases.imp_right fun h => ⟨h.1, ?_⟩⟩
      · simp only [forall_mem_append, forall_mem_singleton]
        exact ⟨hle, not_lt.mp hlow⟩
      · obtain ⟨q, hq, heq⟩ := h.2
        exact ⟨q, mem_append_left _ hq, heq⟩

variable {pool packages}

/-- **The minimum after an eviction** is ten times the best rate evicted and the relay fee. -/
theorem getMinFee_trimToSize {best : Int × Nat} {top : Int} (hbest : best ∈ packages)
    (htop : (pool.removedRate best).nSatoshisPerK = top)
    (hle : ∀ p ∈ packages, (pool.removedRate p).nSatoshisPerK ≤ top)
    (hlow : ∀ p ∈ packages, -2 ^ 49 < (pool.removedRate p).nSatoshisPerK) (hhigh : top < 2 ^ 49)
    (hraised : pool.rollingMinimumFeeRate < (pool.trimToSize packages).rollingMinimumFeeRate)
    (decay : Int → Int → Int → Int) (time : Int) (usage sizelimit : Nat) :
    ((pool.trimToSize packages).getMinFee decay time usage sizelimit).1 = ⟨10 * top⟩ ∧
      (((pool.trimToSize packages).getMinFee decay time usage sizelimit).1 = ⟨top⟩ ↔ top = 0) := by
  have hperK :
    ∀ p ∈ packages, (pool.removedRate p).getFeePerK = 10 * (pool.removedRate p).nSatoshisPerK := by
    intro p hp
    have := hle p hp
    have := hlow p hp
    exact CFeeRate.getFeePerK_eq (by omega) (by omega)
  obtain ⟨-, hall, hcases⟩ := trimToSize_spec pool packages
  cases hcases with
  | inl hsame => exact absurd (hsame ▸ hraised) (lt_irrefl _)
  | inr hlifted =>
    obtain ⟨hbump, p, hp, heq⟩ := hlifted
    have hvalue : (pool.trimToSize packages).rollingMinimumFeeRate = 10 * top := by
      have hfrom := hall best hbest
      have hto := hle p hp
      rw [hperK best hbest] at hfrom
      rw [hperK p hp] at heq
      omega
    simp only [getMinFee, hbump, hvalue, Bool.not_false, true_or, if_true, CFeeRate.mk.injEq, true_and]
    omega

/-- A pool with a relay fee of 1000 satoshis per 1000 bytes. -/
def plainPool : RollingFee := ⟨⟨1000⟩, 0, true, 0⟩

theorem getMinFee_trimToSize_one :
    ((plainPool.trimToSize [(2000, 1000)]).getMinFee (fun rate _ _ => rate) 0 0 0).1 = ⟨10 * 3000⟩ :=
  (getMinFee_trimToSize (mem_singleton_self (2000, 1000)) rfl (by decide) (by decide) (by decide)
    (by decide) _ 0 0 0).1

/-- A package of 2000 satoshis and 1000 bytes is evicted. Three times the relay fee was to be the
minimum; a transaction of 1000 bytes that pays it is 27000 satoshis short. -/
theorem evicted_rate_tenfold : (plainPool.removedRate (2000, 1000)).nSatoshisPerK = 3000 ∧
      ((plainPool.trimToSize [(2000, 1000)]).getMinFee (fun rate _ _ => rate) 0 0 0).1.getFee
        1000 = 30000 := by
  decide

end RollingFee

end Chratos
