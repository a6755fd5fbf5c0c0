import Chratos.Properties.DeploymentFinality

/-!
# Chratos — what locks a deployment in

A deployment that has started is locked in when enough blocks of a period signal for it. A block should
signal by its bit together with the top bits of the version; but the comparison with the top bits is the
condition of `?:`, whose two outcomes are both nonzero, so the bit alone is counted.
-/

namespace Chratos

open Consensus ThresholdConditionChecker List

/-! ## The blocks that are counted -/

variable (params : BIP9Params)

/-- The deployment's bit is set. -/
def hasDeploymentBit (id : DeploymentPos) (pindex : CBlockIndex) : Bool :=
  int32Bits pindex.nVersion &&& (1 <<< UInt32.ofNat (params.vDeployments id).bit) ≠ 0

/-- The top bits are those that the block should have: other ones from the time on at which the
signature of the transaction time is enabled. -/
def hasTopBits (pindex : CBlockIndex) (below : PrevChain) : Bool :=
  int32Bits pindex.nVersion &&& VERSIONBITS_TOP_MASK =
    if params.sigActivationTime ≤ getMedianTimePast (pindex :: below) then VERSIONBITS_TOP_BITS_SIG
    else VERSIONBITS_TOP_BITS

/-- How many of the uppermost `n` blocks have a property of the block and the blocks below. -/
def countBlocks (p : CBlockIndex → PrevChain → Bool) : Nat → PrevChain → Nat
  | 0, _ => 0
  | _ + 1, [] => 0
  | n + 1, pindex :: below =>
    if p pindex below then countBlocks p n below + 1 else countBlocks p n below

/-- The condition as it is evaluated. -/
theorem versionBits_condition_eq (id : DeploymentPos) (pindex : CBlockIndex)
    (below : PrevChain) : (versionBitsConditionChecker params id).condition pindex below =
      hasDeploymentBit params id pindex := by
  have htop : ∀ c : Prop, [Decidable c] →
      decide ((if c then VERSIONBITS_TOP_BITS_SIG else VERSIONBITS_TOP_BITS) ≠ 0) = true := by
    intro c _
    split <;> decide
  show (decide _ && decide _) = decide _
  rw [htop, Bool.true_and]

variable {n : Nat} {p : CBlockIndex → PrevChain → Bool}

theorem countCondition_eq (checker : ThresholdConditionChecker) {chain : PrevChain}
    (hn : n ≤ chain.length) :
    checker.countCondition n chain = some (countBlocks checker.condition n chain) := by
  induction n generalizing chain with
  | zero => rfl
  | succ n ih =>
    cases chain with
    | nil => cases hn
    | cons pindex below =>
      rw [countCondition, ih (Nat.le_of_succ_le_succ hn)]
      rfl

theorem countBlocks_congr {q : CBlockIndex → PrevChain → Bool}
    (h : ∀ pindex below, p pindex below = q pindex below) (n : Nat) (chain : PrevChain) :
    countBlocks p n chain = countBlocks q n chain := by
  induction n generalizing chain with
  | zero => rfl
  | succ n ih =>
    cases chain with
    | nil => rfl
    | cons pindex below => simp only [countBlocks, h, ih]

/-! ## Locking in -/

/-- The last block of the last period that is complete. -/
def lastPeriodEnd (chain : PrevChain) : PrevChain :=
  chain.drop (chain.length % params.nMinerConfirmationWindow)

/-- Blocks of the period that signal with their bit. -/
def bitSignals (id : DeploymentPos) (chain : PrevChain) : Nat :=
  countBlocks (fun pindex _ => hasDeploymentBit params id pindex) params.nMinerConfirmationWindow chain

/-- Blocks of the period that signal with their bit and the required top bits. -/
def requiredSignals (id : DeploymentPos) (chain : PrevChain) : Nat :=
  countBlocks (fun pindex below => hasDeploymentBit params id pindex && hasTopBits params pindex below)
    params.nMinerConfirmationWindow chain

variable {params} {chain : PrevChain}

/-- One step of the `switch` from `THRESHOLD_STARTED`. -/
theorem stateNext_started_eq_lockedIn (pos : DeploymentPos)
    (hlength : params.nMinerConfirmationWindow ≤ chain.length) :
    (versionBitsConditionChecker params pos).stateNext .THRESHOLD_STARTED chain =
        some .THRESHOLD_LOCKED_IN ↔ getMedianTimePast chain < (params.vDeployments pos).nTimeout ∧
        params.nRuleChangeActivationThreshold ≤ bitSignals params pos chain := by
  have hcount : (versionBitsConditionChecker params pos).countCondition
      params.nMinerConfirmationWindow chain = some (bitSignals params pos chain) := by
    rw [countCondition_eq _ hlength]
    exact congrArg some (countBlocks_congr (versionBits_condition_eq params pos) _ _)
  show (if (params.vDeployments pos).nTimeout ≤ (getMedianTimePast chain : Int) then _
    else ((versionBitsConditionChecker params pos).countCondition
      params.nMinerConfirmationWindow chain >>= _)) = _ ↔ _
  rw [hcount]
  by_cases htimeout : (params.vDeployments pos).nTimeout ≤ (getMedianTimePast chain : Int)
  · simp [htimeout]
  · show (if _ then _ else some (if params.nRuleChangeActivationThreshold ≤ _ then _ else _)) = _ ↔ _
    by_cases hthreshold : params.nRuleChangeActivationThreshold ≤ bitSignals params pos chain
    · simp [htimeout, hthreshold, Int.not_le.mp htimeout]
    · simp [htimeout, hthreshold]

section

variable {cache cache' : VersionBitsCache} (hcache : Filled params cache)
  (hcache' : Filled params cache') (pos : DeploymentPos) (hlevel : Leveled chain)
  (hstarted : queriedState params cache pos (chain.drop params.nMinerConfirmationWindow) =
    some .THRESHOLD_STARTED)
include hcache hcache' hlevel hstarted

/-- The state after a period that follows a period with `THRESHOLD_STARTED`. -/
theorem queriedState_eq_lockedIn_iff :
    queriedState params cache' pos chain = some .THRESHOLD_LOCKED_IN ↔
      (params.vDeployments pos).nStartTime ≤ getMedianTimePast (lastPeriodEnd params chain) ∧
        getMedianTimePast (lastPeriodEnd params chain) < (params.vDeployments pos).nTimeout ∧
        params.nRuleChangeActivationThreshold ≤
          bitSignals params pos (lastPeriodEnd params chain) := by
  have hwindow := params.window_pos
  rw [hcache.queriedState_eq, periodStart_eq (hlevel.drop _)] at hstarted
  rw [hcache'.queriedState_eq, periodStart_eq hlevel]
  change (versionBitsConditionChecker params pos).stateAt ((chain.drop
    params.nMinerConfirmationWindow).drop ((chain.drop params.nMinerConfirmationWindow).length %
      params.nMinerConfirmationWindow)) = _ at hstarted
  -- in the first period nothing has started
  have hlength : params.nMinerConfirmationWindow ≤ chain.length := by
    by_contra hshort
    rw [drop_of_length_le (Nat.le_of_not_le hshort), drop_nil, stateAt] at hstarted
    cases hstarted
  have hbefore : (chain.drop params.nMinerConfirmationWindow).drop
      ((chain.drop params.nMinerConfirmationWindow).length % params.nMinerConfirmationWindow) =
      (lastPeriodEnd params chain).drop params.nMinerConfirmationWindow := by
    rw [lastPeriodEnd, drop_drop, drop_drop, length_drop,
      ← Nat.mod_eq_sub_mod hlength, Nat.add_comm]
  rw [hbefore] at hstarted
  have hend : params.nMinerConfirmationWindow ≤ (lastPeriodEnd params chain).length := by
    have hdiv := Nat.div_add_mod' chain.length params.nMinerConfirmationWindow
    have hone := Nat.mul_le_mul_right params.nMinerConfirmationWindow
      ((Nat.one_le_div_iff hwindow).mpr hlength)
    rw [lastPeriodEnd, length_drop]
    omega
  have hne : lastPeriodEnd params chain ≠ [] := length_pos_iff.mp (by omega)
  show (versionBitsConditionChecker params pos).stateAt (lastPeriodEnd params chain) = _ ↔ _
  have hlevel' : Leveled (lastPeriodEnd params chain) := hlevel.drop _
  rw [stateAt_drop hlevel' hne]
  show (if (getMedianTimePast (lastPeriodEnd params chain) : Int) <
      (params.vDeployments pos).nStartTime then _ else ((versionBitsConditionChecker params pos).stateAt
        ((lastPeriodEnd params chain).drop params.nMinerConfirmationWindow) >>= _)) = _ ↔ _
  rw [hstarted]
  by_cases hstart : (getMedianTimePast (lastPeriodEnd params chain) : Int) <
      (params.vDeployments pos).nStartTime
  · simp [hstart]
  · rw [if_neg hstart]
    show (versionBitsConditionChecker params pos).stateNext .THRESHOLD_STARTED
      (lastPeriodEnd params chain) = _ ↔ _
    rw [stateNext_started_eq_lockedIn pos hend]
    simp [Int.not_lt.mp hstart]

/-- A deployment that goes from `THRESHOLD_STARTED` to `THRESHOLD_LOCKED_IN` has been signalled for with
the required top bits by enough blocks of the period, exactly if the period does not end between start
time and timeout, or too few of its blocks have the bit, or enough have it with these top bits. -/
theorem lockedIn_signalled_iff :
    (queriedState params cache' pos chain = some .THRESHOLD_LOCKED_IN →
        params.nRuleChangeActivationThreshold ≤
          requiredSignals params pos (lastPeriodEnd params chain)) ↔
      getMedianTimePast (lastPeriodEnd params chain) < (params.vDeployments pos).nStartTime ∨
        (params.vDeployments pos).nTimeout ≤ getMedianTimePast (lastPeriodEnd params chain) ∨
        bitSignals params pos (lastPeriodEnd params chain) < params.nRuleChangeActivationThreshold ∨
        params.nRuleChangeActivationThreshold ≤
          requiredSignals params pos (lastPeriodEnd params chain) := by
  rw [queriedState_eq_lockedIn_iff hcache hcache' pos hlevel hstarted]
  constructor
  · intro h
    by_contra hnot
    simp only [not_or, Int.not_lt, Int.not_le, Nat.not_lt] at hnot
    exact hnot.2.2.2 (h ⟨hnot.1, hnot.2.1, hnot.2.2.1⟩)
  · intro h hlocked
    omega

end

/-! ## Blocks of version 1 -/

/-- A block of version 1 with a time between the start time and the timeout of `DEPLOYMENT_CSV`. -/
def oldVersionEntry (nHeight : Nat) : CBlockIndex where
  hash := BitVec.ofNat 256 nHeight
  nHeight := nHeight
  nVersion := 1
  nTime := 1500000000
  nBits := 0x1f00ffff

/-- A chain of such blocks above the genesis block of the main network. -/
def oldVersionChain : Nat → PrevChain
  | 0 => [mainGenesis]
  | n + 1 => oldVersionEntry (n + 1) :: oldVersionChain n

theorem length_oldVersionChain (n : Nat) : (oldVersionChain n).length = n + 1 := by
  induction n with
  | zero => rfl
  | succ n ih => rw [oldVersionChain, length_cons, ih]

theorem leveled_oldVersionChain (n : Nat) : Leveled (oldVersionChain n) := by
  induction n with
  | zero => exact ⟨rfl, trivial⟩
  | succ n ih => exact ⟨(length_oldVersionChain n).symm, ih⟩

theorem drop_oldVersionChain (m n : Nat) : (oldVersionChain (n + m)).drop m = oldVersionChain n := by
  induction m with
  | zero => rfl
  | succ m ih => exact ih

/-- What holds of all blocks above the genesis block, or of none. -/
theorem countBlocks_oldVersionChain {b : Bool}
    (hp : ∀ n, p (oldVersionEntry (n + 1)) (oldVersionChain n) = b) {k : Nat} (hk : k ≤ n) :
    countBlocks p k (oldVersionChain n) = if b then k else 0 := by
  induction k generalizing n with
  | zero => simp [countBlocks]
  | succ k ih =>
    cases n with
    | zero => cases hk
    | succ n =>
      rw [oldVersionChain, countBlocks, hp, ih (Nat.le_of_succ_le_succ hk)]
      cases b <;> rfl

theorem lastPeriodEnd_oldVersionChain (hn : (n + 1) % 20160 = 0) :
    lastPeriodEnd .main (oldVersionChain n) = oldVersionChain n := by
  rw [lastPeriodEnd, length_oldVersionChain]
  show (oldVersionChain n).drop ((n + 1) % 20160) = _
  rw [hn, drop_zero]

/-- When the first period ends the deployment has started. -/
theorem oldVersionChain_started :
    queriedState .main .empty .DEPLOYMENT_CSV ((oldVersionChain 40319).drop 20160) =
      some .THRESHOLD_STARTED := by
  have htime : getMedianTimePast (oldVersionChain 20159) = 1500000000 := by decide +kernel
  rw [drop_oldVersionChain 20160 20159, Filled.empty.queriedState_firstPeriod _
    (leveled_oldVersionChain _) (length_oldVersionChain _), stateNext, htime]
  decide

theorem bitSignals_oldVersionChain :
    bitSignals .main .DEPLOYMENT_CSV (oldVersionChain 40319) = 20160 := by
  have hbit : decide (int32Bits 1 &&& 1 <<< UInt32.ofNat 0 ≠ 0) = true := by decide
  exact countBlocks_oldVersionChain (b := true) (fun _ => hbit) (by decide : 20160 ≤ 40319)

/-- No block has the top bits, whichever are required of it. -/
theorem requiredSignals_oldVersionChain :
    requiredSignals .main .DEPLOYMENT_CSV (oldVersionChain 40319) = 0 := by
  refine countBlocks_oldVersionChain (b := false) (fun n => ?_) (by decide : 20160 ≤ 40319)
  refine Bool.and_eq_false_imp.mpr fun _ => decide_eq_false ?_
  show ¬ int32Bits 1 &&& VERSIONBITS_TOP_MASK = _
  split <;> decide

theorem lockedIn_signalled_iff_main :
    queriedState .main .empty .DEPLOYMENT_CSV ((oldVersionChain 40319).drop 20160) =
        some .THRESHOLD_STARTED ∧
      ((queriedState .main .empty .DEPLOYMENT_CSV (oldVersionChain 40319) =
            some .THRESHOLD_LOCKED_IN → 15120 ≤ requiredSignals .main .DEPLOYMENT_CSV
            (lastPeriodEnd .main (oldVersionChain 40319))) ↔
        getMedianTimePast (lastPeriodEnd .main (oldVersionChain 40319)) < (1462060800 : Int) ∨
          (1525132800 : Int) ≤ getMedianTimePast (lastPeriodEnd .main (oldVersionChain 40319)) ∨
          bitSignals .main .DEPLOYMENT_CSV (lastPeriodEnd .main (oldVersionChain 40319)) < 15120 ∨
          15120 ≤ requiredSignals .main .DEPLOYMENT_CSV
            (lastPeriodEnd .main (oldVersionChain 40319))) :=
  ⟨oldVersionChain_started, lockedIn_signalled_iff .empty .empty .DEPLOYMENT_CSV
    (leveled_oldVersionChain 40319) oldVersionChain_started⟩

/-- `DEPLOYMENT_CSV` goes from started to locked in although no block of the period has top bits. -/
theorem version_one_locks_in :
    queriedState .main .empty .DEPLOYMENT_CSV ((oldVersionChain 40319).drop 20160) =
        some .THRESHOLD_STARTED ∧
      queriedState .main .empty .DEPLOYMENT_CSV (oldVersionChain 40319) =
        some .THRESHOLD_LOCKED_IN ∧
      requiredSignals .main .DEPLOYMENT_CSV (lastPeriodEnd .main (oldVersionChain 40319)) = 0 := by
  have htime : getMedianTimePast (oldVersionChain 40319) = 1500000000 := by decide +kernel
  have hend : lastPeriodEnd .main (oldVersionChain 40319) = oldVersionChain 40319 :=
    lastPeriodEnd_oldVersionChain (by decide)
  refine ⟨oldVersionChain_started, ?_, ?_⟩
  · rw [queriedState_eq_lockedIn_iff .empty .empty .DEPLOYMENT_CSV (leveled_oldVersionChain 40319)
      oldVersionChain_started, hend, htime, bitSignals_oldVersionChain]
    decide
  · rw [hend]
    exact requiredSignals_oldVersionChain

end Chratos
