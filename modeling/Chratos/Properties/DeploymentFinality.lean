import Chratos.Consensus.VersionBits
import Chratos.Properties.Conservation

/-!
# Chratos — deployments that go back

`ContextualCheckBlockHeader` bounds the time of a header from above only. The median time past can
therefore fall along a chain, also below the start time of a deployment, and `GetStateFor` takes a
period that ends before the start time for `THRESHOLD_DEFINED`, whatever was before it.
-/

namespace Chratos

open Consensus List ThresholdConditionChecker Outcome

variable {checker : ThresholdConditionChecker} {final : ThresholdState} {cache : VersionBitsCache}

/-! ## Chains of accepted headers -/

/-- The process with the deployments of the parameters. Which answers the cache has for them makes no
difference (`Filled.queriedState_eq`). -/
def Env.deployed (env : Env) (params : BIP9Params) : Env :=
  { env with
    consensus := params.toParams
    versionBitsActive := fun deployment chain =>
      queriedState params .empty deployment.pos chain = some .THRESHOLD_ACTIVE }

/-- The entry that `AddToBlockIndex` makes of a header; what `ConnectBlock` adds to it later is left
open. -/
structure EntryOf (env : Env) (block : CBlockHeader) (pindexPrev pindex : CBlockIndex) : Prop where
  hash_eq : pindex.hash = env.blockHash block.toBlock
  hashPrev_eq : block.hashPrevBlock = pindexPrev.hash
  nHeight_eq : pindex.nHeight = pindexPrev.nHeight + 1
  nVersion_eq : pindex.nVersion = block.nVersion
  nTime_eq : pindex.nTime = block.nTime

/-- Chains on a genesis block whose headers `ContextualCheckBlockHeader` has accepted, each at a time of
its own. -/
inductive AcceptedHeaders (params : BIP9Params) (env : Env) : PrevChain → Prop where
  | genesis (pindex : CBlockIndex) (height : pindex.nHeight = 0) : AcceptedHeaders params env [pindex]
  | header {pindexPrev : CBlockIndex} {below : PrevChain}
      (prev : AcceptedHeaders params env (pindexPrev :: below)) {ctx : HeaderContext}
      {block : CBlockHeader} {state : CValidationState}
      (accepted : contextualCheckBlockHeader (env.deployed params) ctx block state
        (pindexPrev :: below) = .ok ())
      {pindex : CBlockIndex} (entry : EntryOf env block pindexPrev pindex) :
      AcceptedHeaders params env (pindex :: pindexPrev :: below)

variable {params : BIP9Params} {env : Env} {chain : PrevChain}

theorem AcceptedHeaders.leveled (h : AcceptedHeaders params env chain) : Leveled chain := by
  induction h with
  | genesis pindex height => exact ⟨height, trivial⟩
  | header prev accepted entry ih =>
    refine ⟨?_, ih⟩
    rw [entry.nHeight_eq, ih.1, length_cons]

/-! ## Final states -/

/-- The states that the `switch` never leaves. -/
def ThresholdState.isFinal : ThresholdState → Bool
  | .THRESHOLD_ACTIVE => true
  | .THRESHOLD_FAILED => true
  | _ => false

/-- The block is the last of its period. -/
def endsPeriod (params : BIP9Params) (chain : PrevChain) : Bool :=
  chain.head?.any fun pindex => (pindex.nHeight + 1) % params.nMinerConfirmationWindow = 0

theorem Leveled.endsPeriod_iff (h : Leveled chain) : endsPeriod params chain = true ↔
      chain ≠ [] ∧ chain.length % params.nMinerConfirmationWindow = 0 := by
  cases chain with
  | nil => simp [endsPeriod]
  | cons pindex below => simp [endsPeriod, h.1]

namespace ThresholdConditionChecker

theorem stateNext_of_isFinal (hfinal : final.isFinal = true) (chain : PrevChain) :
    checker.stateNext final chain = some final := by
  cases final with
  | THRESHOLD_ACTIVE => rfl
  | THRESHOLD_FAILED => rfl
  | _ => cases hfinal

/-- A period that ends in a final state does not end before the start time. -/
theorem beginTime_le_of_isFinal (hlevel : Leveled chain) (hfinal : final.isFinal = true)
    (hstate : checker.stateAt chain = some final) :
    checker.beginTime ≤ getMedianTimePast chain := by
  have hne : chain ≠ [] := by
    intro hnil
    rw [hnil, stateAt] at hstate
    cases hstate
    cases hfinal
  by_contra hlt
  rw [stateAt_drop hlevel hne, if_pos (not_le.mp hlt)] at hstate
  cases hstate
  cases hfinal

/-- A final state at the end of the `q`-th period is kept over the next `k` periods. The induction is on
`k`: a period that does not end before the start time takes its state from the one before. -/
theorem stateAt_of_isFinal (hlevel : Leveled chain) (hfinal : final.isFinal = true) (q : Nat)
    (hstate : ∀ e, e <:+ chain → e.length = q * checker.period → checker.stateAt e = some final)
    (htimes : ∀ e, e <:+ chain → q * checker.period < e.length → e.length % checker.period = 0 →
      checker.beginTime ≤ getMedianTimePast e) (k : Nat) :
    ∀ e, e <:+ chain → e.length = (q + k) * checker.period → checker.stateAt e = some final := by
  induction k with
  | zero => exact hstate
  | succ k ih =>
    intro e he hlength
    have hperiod := checker.period_pos
    have hsum : e.length = (q + k) * checker.period + checker.period := by
      rw [hlength, ← Nat.succ_mul]
      rfl
    have hle : q * checker.period ≤ (q + k) * checker.period :=
      Nat.mul_le_mul_right _ (Nat.le_add_right q k)
    have hne : e ≠ [] := length_pos_iff.mp (by omega)
    have htime := htimes e he (by omega) (by rw [hlength]; exact Nat.mul_mod_left _ _)
    rw [stateAt_drop (hlevel.of_suffix he) hne, if_neg (not_lt.mpr htime),
      ih _ ((drop_suffix _ _).trans he) (by rw [length_drop]; omega)]
    exact stateNext_of_isFinal hfinal e

end ThresholdConditionChecker

/-! ## Queries -/

/-- On a chain of accepted headers a query returns a state. -/
theorem exists_queriedState (hcache : Filled params cache)
    (hlevel : Leveled chain) (pos : DeploymentPos) :
    ∃ state, queriedState params cache pos chain = some state := by
  rw [hcache.queriedState_eq pos chain, periodStart_eq hlevel]
  refine exists_stateAt (hlevel.drop _)
    (chain.length / (versionBitsConditionChecker params pos).period) ?_
  rw [length_drop]
  have := Nat.div_add_mod' chain.length (versionBitsConditionChecker params pos).period
  omega

/-- The finality of one deployment, without caches. -/
theorem stateAt_periodStart_iff
    {b : PrevChain} (hlevel : Leveled chain) (hb : b <:+ chain) (hfinal : final.isFinal = true)
    (hstate : checker.stateAt (checker.periodStart b) = some final) :
    (∀ d, b <:+ d → d <:+ chain → checker.stateAt (checker.periodStart d) = some final) ↔
      ∀ d, b <:+ d → d <:+ chain → d ≠ [] → d.length % checker.period = 0 →
        checker.beginTime ≤ getMedianTimePast d := by
  constructor
  · intro hall d hbd hd _ hmod
    have hlevel' := hlevel.of_suffix hd
    have hstart : checker.periodStart d = d := by
      rw [periodStart_eq hlevel', hmod, drop_zero]
    have hkept := hall d hbd hd
    rw [hstart] at hkept
    exact beginTime_le_of_isFinal hlevel' hfinal hkept
  · intro htimes d hbd hd
    have hperiod := checker.period_pos
    -- the end of a period is given by its length
    have hb' := Nat.div_add_mod' b.length checker.period
    have hd' := Nat.div_add_mod' d.length checker.period
    have hbmod := Nat.mod_lt b.length hperiod
    have hle : b.length / checker.period ≤ d.length / checker.period :=
      Nat.div_le_div_right hbd.length_le
    rw [periodStart_eq (hlevel.of_suffix hb)] at hstate
    rw [periodStart_eq (hlevel.of_suffix hd)]
    refine stateAt_of_isFinal hlevel hfinal
      (b.length / checker.period) ?_ ?_ (d.length / checker.period - b.length / checker.period)
      _ ((drop_suffix _ _).trans hd) ?_
    · intro e he hlength
      have hsame : e = b.drop (b.length % checker.period) :=
        (suffix_of_suffix_length_le he ((drop_suffix _ _).trans hb)
          (by rw [length_drop]; omega)).eq_of_length (by rw [length_drop]; omega)
      rw [hsame]
      exact hstate
    · -- a later end of a period is above `b`
      intro e he hlt hmod
      have hq : b.length / checker.period < e.length / checker.period := by
        have := Nat.div_add_mod' e.length checker.period
        exact Nat.lt_of_mul_lt_mul_right (a := checker.period) (by omega)
      have hnext : (b.length / checker.period + 1) * checker.period ≤ e.length := by
        rw [← Nat.div_add_mod' e.length checker.period, hmod]
        exact Nat.mul_le_mul_right _ hq
      rw [Nat.succ_mul] at hnext
      exact htimes e (suffix_of_suffix_length_le hb he (by omega)) he
        (length_pos_iff.mp (by omega)) hmod
    · rw [length_drop, Nat.add_sub_cancel' hle]
      omega

/-- Whatever has been asked before, `VersionBitsState` returns for every block what it returns with
an empty cache. And a deployment that is active or has failed after a block `b` of a chain of
accepted headers is so after all blocks from `b` on, exactly if none of them ends a period with a
median time past before the start time of the deployment. -/
theorem versionBits_final_iff {cache' : VersionBitsCache} (hcache : Filled params cache)
    (hcache' : Filled params cache') (pos : DeploymentPos) :
    (∀ b, queriedState params cache pos b = queriedState params .empty pos b) ∧
      ∀ chain, AcceptedHeaders params env chain →
        (∀ b, b <:+ chain → ∃ state, queriedState params cache pos b = some state) ∧
        ∀ final b, final.isFinal = true → b <:+ chain →
          queriedState params cache pos b = some final →
          ((∀ d, b <:+ d → d <:+ chain → queriedState params cache' pos d = some final) ↔
            ∀ d, b <:+ d → d <:+ chain → endsPeriod params d = true →
              (params.vDeployments pos).nStartTime ≤ getMedianTimePast d) := by
  refine ⟨fun b => ?_, fun chain hchain => ⟨fun b hb => ?_, ?_⟩⟩
  · rw [hcache.queriedState_eq, Filled.empty.queriedState_eq]
  · exact exists_queriedState hcache (hchain.leveled.of_suffix hb) pos
  · intro final b hfinal hb hstate
    have hlevel := hchain.leveled
    rw [hcache.queriedState_eq] at hstate
    have hiff := stateAt_periodStart_iff hlevel hb hfinal hstate
    simp only [hcache'.queriedState_eq, hiff]
    refine forall₃_congr fun d _ hd => ?_
    rw [(hlevel.of_suffix hd).endsPeriod_iff, and_imp]
    rfl

/-! ## The main network -/

/-- The genesis block of the main network. -/
def mainGenesis : CBlockIndex where
  hash := Params.main.hashGenesisBlock
  nHeight := 0
  nVersion := 1
  nTime := 1532360945
  nBits := 0x1f00ffff

/-- A header with all versions that can be asked for. -/
def steadyHeader (hashPrevBlock : Uint256) (nTime : UInt32) : CBlockHeader where
  nVersion := 0x71000020
  hashPrevBlock := hashPrevBlock
  hashMerkleRoot := 0
  nTime := nTime
  nBits := 0x1f00ffff
  nNonce := 0

/-- The headers of one period have the time of the genesis block, all later ones that of the beginning
of time. -/
def relapsingTime (n : Nat) : UInt32 := if n < 20160 then 1532360945 else 0

def relapsingEntry : Nat → CBlockIndex
  | 0 => mainGenesis
  | n + 1 =>
    { hash := (sampleEnv 0).blockHash
        (steadyHeader (relapsingEntry n).hash (relapsingTime (n + 1))).toBlock
      nHeight := n + 1
      nVersion := 0x71000020
      nTime := relapsingTime (n + 1)
      nBits := 0x1f00ffff }

/-- The chain of these headers, up to a height. -/
def relapsingChain : Nat → PrevChain
  | 0 => [mainGenesis]
  | n + 1 => relapsingEntry (n + 1) :: relapsingChain n

theorem relapsingChain_eq_cons (n : Nat) :
    relapsingChain n = relapsingEntry n :: (relapsingChain n).tail := by
  cases n <;> rfl

theorem relapsingEntry_nHeight (n : Nat) : (relapsingEntry n).nHeight = n := by
  cases n <;> rfl

theorem relapsingChain_suffix {m n : Nat} (h : m ≤ n) : relapsingChain m <:+ relapsingChain n := by
  induction h with
  | refl => exact suffix_refl _
  | step _ ih => exact ih.trans (suffix_cons _ _)

theorem length_relapsingChain (n : Nat) : (relapsingChain n).length = n + 1 := by
  induction n with
  | zero => rfl
  | succ n ih => rw [relapsingChain, length_cons, ih]

def genesisContext : HeaderContext where
  find := fun _ => none
  nAdjustedTime := 1532360945
  nMajorityRejectBlockOutdated := 950
  lastCheckpoint := none

theorem relapsingTime_le (n : Nat) : (relapsingTime n).toNat ≤ 1532360945 := by
  rw [relapsingTime]
  split <;> decide

/-- No check finds fault with such a header. -/
theorem accepted_steadyHeader (env : Env) (hashPrevBlock : Uint256) (n : Nat) (chain : PrevChain) :
    contextualCheckBlockHeader env genesisContext (steadyHeader hashPrevBlock (relapsingTime n)) {}
      chain = .ok () := by
  have hnew : decide (genesisContext.nAdjustedTime + 2 * 60 * 60 <
      ((relapsingTime n).toNat : Int)) = false := by
    have hle := relapsingTime_le n
    apply decide_eq_false
    show ¬ (1532360945 + 2 * 60 * 60 < ((relapsingTime n).toNat : Int))
    omega
  have hold : ∀ version ∈ [2, 3, 4],
      checkOutdated env genesisContext 0x71000020 {} chain version = .ok () := by
    intro version hversion
    have hle : ¬ (0x71000020 : Int) < version := by
      simp only [mem_cons, not_mem_nil, or_false] at hversion
      omega
    rw [checkOutdated, decide_eq_false hle, Bool.false_and]
    rfl
  have hsig : decide (int32Bits 0x71000020 &&& VERSIONBITS_TOP_BITS_SIG ≠
      VERSIONBITS_TOP_BITS_SIG) = false := by decide
  have hsegwit : decide (int32Bits 0x71000020 &&& nSegWitVersionMask ≠
      nSegWitVersionMask) = false := by decide
  refine bind_eq_ok.mpr ⟨(), rejectIf_eq_ok.mpr hnew, ?_⟩
  refine bind_eq_ok.mpr ⟨(), forM_eq_ok.mpr hold, ?_⟩
  refine bind_eq_ok.mpr ⟨(), rejectIf_eq_ok.mpr ?_, rejectIf_eq_ok.mpr ?_⟩
  · exact Bool.and_eq_false_imp.mpr fun h => absurd h (Bool.eq_false_iff.mp hsig)
  · exact Bool.and_eq_false_imp.mpr fun h => absurd h (Bool.eq_false_iff.mp hsegwit)

theorem relapsingChain_accepted (n : Nat) :
    AcceptedHeaders .main (sampleEnv 0) (relapsingChain n) := by
  induction n with
  | zero => exact .genesis mainGenesis rfl
  | succ n ih =>
    rw [relapsingChain, relapsingChain_eq_cons n]
    rw [relapsingChain_eq_cons n] at ih
    refine .header ih (accepted_steadyHeader _ (relapsingEntry n).hash (n + 1) _) ?_
    exact ⟨rfl, rfl, by rw [relapsingEntry_nHeight, relapsingEntry_nHeight], rfl, rfl⟩

theorem relapsingChain_ne_nil (n : Nat) : relapsingChain n ≠ [] := by
  rw [relapsingChain_eq_cons]
  exact cons_ne_nil _ _

/-- On the main network `DEPLOYMENT_CSV` has failed when the first period ends, since its timeout is
before the genesis block. -/
theorem relapsingChain_failed :
    queriedState .main .empty .DEPLOYMENT_CSV (relapsingChain 20159) = some .THRESHOLD_FAILED := by
  have htime : getMedianTimePast (relapsingChain 20159) = 1532360945 := by decide +kernel
  rw [Filled.empty.queriedState_firstPeriod _ (relapsingChain_accepted _).leveled
    (length_relapsingChain _), stateNext, htime]
  decide

theorem versionBits_final_iff_main :
    Filled .main .empty ∧ AcceptedHeaders .main (sampleEnv 0) (relapsingChain 40319) ∧
      ((∀ d, relapsingChain 20159 <:+ d → d <:+ relapsingChain 40319 →
          queriedState .main .empty .DEPLOYMENT_CSV d = some .THRESHOLD_FAILED) ↔
        ∀ d, relapsingChain 20159 <:+ d → d <:+ relapsingChain 40319 →
          endsPeriod .main d = true → (1462060800 : Int) ≤ getMedianTimePast d) := by
  have hfinal := (versionBits_final_iff .empty .empty .DEPLOYMENT_CSV).2 (relapsingChain 40319)
    (relapsingChain_accepted 40319)
  exact ⟨.empty, relapsingChain_accepted 40319, hfinal.2 .THRESHOLD_FAILED (relapsingChain 20159) rfl
    (relapsingChain_suffix (by decide)) relapsingChain_failed⟩

/-- When the second period ends with a median time past of 0, the failed deployment is only defined. -/
theorem failed_deployment_defined : AcceptedHeaders .main (sampleEnv 0) (relapsingChain 40319) ∧
      relapsingChain 20159 <:+ relapsingChain 40319 ∧
      queriedState .main .empty .DEPLOYMENT_CSV (relapsingChain 20159) = some .THRESHOLD_FAILED ∧
      queriedState .main .empty .DEPLOYMENT_CSV (relapsingChain 40319) = some .THRESHOLD_DEFINED := by
  have htime : getMedianTimePast (relapsingChain 40319) = 0 := by decide +kernel
  refine ⟨relapsingChain_accepted _, relapsingChain_suffix (by decide), relapsingChain_failed, ?_⟩
  rw [Filled.empty.queriedState_periodEnd _ (relapsingChain_accepted _).leveled
      (by rw [length_relapsingChain]; decide),
    stateAt_drop (relapsingChain_accepted _).leveled (relapsingChain_ne_nil _), htime]
  exact if_pos (by decide)

end Chratos
