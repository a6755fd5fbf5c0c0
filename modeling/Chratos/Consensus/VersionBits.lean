import Chratos.Consensus.AcceptBlockHeader
import Chratos.Lib.Effect

/-!
# Chratos — the state of a deployment (`versionbits.cpp`, `versionbits.h`)

The state of a soft fork is the same for all blocks of a period, and is computed from the last block of
the period before. `GetStateFor` walks back over the ends of periods until it meets one it knows or one
before the start of the deployment, and then forward, filling its cache. The count of the signalling
blocks follows `pprev` without looking for the end of the chain; `none` is a null pointer that is
dereferenced, or the assertion after the walk.

A block is given by its entry with the entries below it, `NULL` by the empty chain, and the cache is
keyed by that.
-/

namespace Chratos

open List

variable {chain : PrevChain}

/-! ## Parameters -/

namespace Consensus

inductive DeploymentPos where
  | DEPLOYMENT_TESTDUMMY
  | DEPLOYMENT_CSV
  | DEPLOYMENT_SEGWIT
  | DEPLOYMENT_CSV_LEGACY
  | DEPLOYMENT_SEGWIT_LEGACY
  | DEPLOYMENT_COMMUNITYFUND
  deriving DecidableEq

structure BIP9Deployment where
  bit : Nat
  nStartTime : Int
  nTimeout : Int

/-- The parameters with those of the deployments. The code divides by the window. -/
structure BIP9Params extends Params where
  nRuleChangeActivationThreshold : Nat
  nMinerConfirmationWindow : Nat
  vDeployments : DeploymentPos → BIP9Deployment
  window_pos : 0 < nMinerConfirmationWindow

/-- The main network. It leaves the last deployment as static memory has it. -/
def BIP9Params.main : BIP9Params where
  toParams := Params.main
  nRuleChangeActivationThreshold := 15120
  nMinerConfirmationWindow := 20160
  vDeployments
    | .DEPLOYMENT_TESTDUMMY => ⟨28, 1199145601, 1230767999⟩
    | .DEPLOYMENT_CSV => ⟨0, 1462060800, 1525132800⟩
    | .DEPLOYMENT_SEGWIT => ⟨4, 1493424000, 1525132800⟩
    | .DEPLOYMENT_CSV_LEGACY => ⟨2, 1462060800, 1525132800⟩
    | .DEPLOYMENT_SEGWIT_LEGACY => ⟨1, 1493424000, 1525132800⟩
    | .DEPLOYMENT_COMMUNITYFUND => ⟨0, 0, 0⟩
  window_pos := by decide

/-- The two deployments that the checks of blocks ask about. -/
def Deployment.pos : Deployment → DeploymentPos
  | .DEPLOYMENT_CSV => .DEPLOYMENT_CSV
  | .DEPLOYMENT_SEGWIT => .DEPLOYMENT_SEGWIT

end Consensus

def VERSIONBITS_TOP_BITS : UInt32 := 0x70000000
def VERSIONBITS_TOP_MASK : UInt32 := 0xF0000000

inductive ThresholdState where
  | THRESHOLD_DEFINED
  | THRESHOLD_STARTED
  | THRESHOLD_LOCKED_IN
  | THRESHOLD_ACTIVE
  | THRESHOLD_FAILED
  deriving DecidableEq, Repr

abbrev ThresholdConditionCache := StdMap PrevChain ThresholdState

/-- `AbstractThresholdConditionChecker`. The condition is about an entry and the entries below it. -/
structure ThresholdConditionChecker where
  beginTime : Int
  endTime : Int
  period : Nat
  threshold : Nat
  condition : CBlockIndex → PrevChain → Bool
  period_pos : 0 < period

/-- `GetAncestor`: the entry at a height with the entries below it. -/
def ancestorAt (chain : PrevChain) (height : Int) : PrevChain :=
  match chain with
  | [] => []
  | pindex :: _ =>
    if (pindex.nHeight : Int) < height ∨ height < 0 then []
    else chain.dropWhile fun p => (p.nHeight : Int) ≠ height

variable {pindex : CBlockIndex} {below : PrevChain}

theorem length_ancestorAt_lt {height : Int} (h : height < pindex.nHeight) :
    (ancestorAt (pindex :: below) height).length < (pindex :: below).length := by
  rw [ancestorAt]
  split
  · exact Nat.succ_pos _
  · rw [dropWhile_cons_of_pos (by simpa using ne_of_gt h)]
    exact Nat.lt_succ_of_le (dropWhile_suffix _).length_le

namespace ThresholdConditionChecker

variable (checker : ThresholdConditionChecker)

theorem sub_period_lt (n : Nat) : (n : Int) - checker.period < n := by
  have := checker.period_pos
  omega

/-! ## The walk -/

/-- The first loop: back over the ends of periods. What is to be computed is a stack. -/
def walkBack (cache : ThresholdConditionCache) (pindexPrev : PrevChain)
    (vToCompute : List PrevChain) : ThresholdConditionCache × PrevChain × List PrevChain :=
  if cache.count pindexPrev then (cache, pindexPrev, vToCompute)
  else
    match pindexPrev with
    | [] => (cache.assign [] .THRESHOLD_DEFINED, [], vToCompute)
    | pindex :: below =>
      if getMedianTimePast (pindex :: below) < checker.beginTime then
        (cache.assign (pindex :: below) .THRESHOLD_DEFINED, pindex :: below, vToCompute)
      else
        walkBack cache (ancestorAt (pindex :: below) (pindex.nHeight - checker.period))
          ((pindex :: below) :: vToCompute)
termination_by pindexPrev.length
decreasing_by exact length_ancestorAt_lt (checker.sub_period_lt _)

/-- The loop that counts the blocks with the condition. -/
def countCondition : Nat → PrevChain → Option Nat
  | 0, _ => some 0
  | _ + 1, [] => none
  | i + 1, pindexCount :: below => do
    let count ← countCondition i below
    pure (if checker.condition pindexCount below then count + 1 else count)

/-- The `switch` of the second loop. -/
def stateNext (state : ThresholdState) (pindexPrev : PrevChain) : Option ThresholdState :=
  match state with
  | .THRESHOLD_DEFINED =>
    some (if checker.endTime ≤ getMedianTimePast pindexPrev then .THRESHOLD_FAILED
      else if checker.beginTime ≤ getMedianTimePast pindexPrev then .THRESHOLD_STARTED
      else .THRESHOLD_DEFINED)
  | .THRESHOLD_STARTED =>
    if checker.endTime ≤ getMedianTimePast pindexPrev then some .THRESHOLD_FAILED
    else do
      let count ← checker.countCondition checker.period pindexPrev
      pure (if checker.threshold ≤ count then .THRESHOLD_LOCKED_IN else .THRESHOLD_STARTED)
  | .THRESHOLD_LOCKED_IN => some .THRESHOLD_ACTIVE
  | .THRESHOLD_FAILED => some .THRESHOLD_FAILED
  | .THRESHOLD_ACTIVE => some .THRESHOLD_ACTIVE

/-- The second loop: forward again. -/
def walkForward : List PrevChain → ThresholdState → ThresholdConditionCache →
    Option (ThresholdState × ThresholdConditionCache)
  | [], state, cache => some (state, cache)
  | pindexPrev :: vToCompute, state, cache => do
    let next ← checker.stateNext state pindexPrev
    walkForward vToCompute next (cache.assign pindexPrev next)

/-- What follows the first loop: the assertion and the second loop. -/
def resume (walk : ThresholdConditionCache × PrevChain × List PrevChain) :
    Option (ThresholdState × ThresholdConditionCache) := do
  let state ← walk.1.find walk.2.1
  checker.walkForward walk.2.2 state walk.1

/-- The last block of the period before. -/
def periodStart (pindexPrev : PrevChain) : PrevChain :=
  match pindexPrev with
  | [] => []
  | pindex :: _ =>
    ancestorAt pindexPrev (pindex.nHeight - ((pindex.nHeight + 1) % checker.period : Nat))

/-- `GetStateFor`. -/
def getStateFor (pindexPrev : PrevChain) (cache : ThresholdConditionCache) :
    Option (ThresholdState × ThresholdConditionCache) :=
  checker.resume (checker.walkBack cache (checker.periodStart pindexPrev) [])

/-! ## Without a cache -/

/-- The state after the end of a period, computed without a cache. -/
def stateAt (chain : PrevChain) : Option ThresholdState :=
  match chain with
  | [] => some .THRESHOLD_DEFINED
  | pindex :: below =>
    if getMedianTimePast (pindex :: below) < checker.beginTime then some .THRESHOLD_DEFINED
    else do
      let state ← stateAt (ancestorAt (pindex :: below) (pindex.nHeight - checker.period))
      checker.stateNext state (pindex :: below)
termination_by chain.length
decreasing_by exact length_ancestorAt_lt (checker.sub_period_lt _)

/-- A result that a walk can have for a chain, and the cache it leaves. -/
def Answers (chain : PrevChain) (vToCompute : List PrevChain)
    (result : Option (ThresholdState × ThresholdConditionCache)) : Prop :=
  match checker.stateAt chain with
  | none => result = none
  | some state => ∃ cache : ThresholdConditionCache, cache.Agrees checker.stateAt ∧
      result = checker.walkForward vToCompute state cache

variable {checker}

section

variable {cache : ThresholdConditionCache} {vToCompute : List PrevChain}
  {state : ThresholdState} (h : cache.Agrees checker.stateAt)
include h

/-- The walk has an answer at hand as soon as the cache has, or has been given, the state. -/
theorem answers_resume (hfind : cache.find chain = some state) :
    checker.Answers chain vToCompute (checker.resume (cache, chain, vToCompute)) := by
  rw [Answers, h chain state hfind]
  refine ⟨cache, h, ?_⟩
  show (cache.find chain >>= _) = _
  rw [hfind]
  rfl

theorem answers_assign (hstate : checker.stateAt chain = some state) :
    checker.Answers chain vToCompute
      (checker.resume (cache.assign chain state, chain, vToCompute)) := by
  apply answers_resume (h.assign hstate)
  rw [StdMap.find_assign, if_pos rfl]

end

/-- Both loops together compute `stateAt`. The induction is on the first loop: an answer for the period
before gives one for this period, by one round of the second loop. -/
theorem answers_walkBack {cache : ThresholdConditionCache} (h : cache.Agrees checker.stateAt)
    (chain : PrevChain) (vToCompute : List PrevChain) : checker.Answers chain vToCompute
      (checker.resume (checker.walkBack cache chain vToCompute)) := by
  rw [walkBack.eq_def]
  by_cases hcount : cache.count chain = true
  · rw [if_pos hcount]
    obtain ⟨state, hfind⟩ := Option.isSome_iff_exists.mp hcount
    exact answers_resume h hfind
  · rw [if_neg hcount]
    match chain with
    | [] =>
      exact answers_assign h (by rw [stateAt])
    | pindex :: below =>
      show checker.Answers _ _ (checker.resume (if _ then _ else _))
      by_cases htime : getMedianTimePast (pindex :: below) < checker.beginTime
      · rw [if_pos htime]
        exact answers_assign h (by rw [stateAt, if_pos htime])
      · rw [if_neg htime]
        have ih := answers_walkBack h
          (ancestorAt (pindex :: below) (pindex.nHeight - checker.period))
          ((pindex :: below) :: vToCompute)
        rw [Answers] at ih ⊢
        rw [stateAt, if_neg htime]
        cases hbefore : checker.stateAt
            (ancestorAt (pindex :: below) (pindex.nHeight - checker.period)) with
        | none =>
          rw [hbefore] at ih
          exact ih
        | some before =>
          rw [hbefore] at ih
          obtain ⟨cache', hagrees, hresult⟩ := ih
          rw [hresult]
          show (match checker.stateNext before (pindex :: below) with | none => _ | some _ => _)
          cases hnext : checker.stateNext before (pindex :: below) with
          | none =>
            show (checker.stateNext before (pindex :: below) >>= _) = none
            rw [hnext]
            rfl
          | some next =>
            refine ⟨cache'.assign (pindex :: below) next, hagrees.assign ?_, ?_⟩
            · rw [stateAt, if_neg htime, hbefore]
              exact hnext
            · show (checker.stateNext before (pindex :: below) >>= _) = _
              rw [hnext]
              rfl
termination_by chain.length
decreasing_by exact length_ancestorAt_lt (checker.sub_period_lt _)

section

variable {cache : ThresholdConditionCache} (h : cache.Agrees checker.stateAt)
include h

theorem answers_getStateFor (pindexPrev : PrevChain) :
    checker.Answers (checker.periodStart pindexPrev) [] (checker.getStateFor pindexPrev cache) :=
  answers_walkBack h _ _

/-- The answer is the one without a cache. -/
theorem getStateFor_fst (pindexPrev : PrevChain) :
    (checker.getStateFor pindexPrev cache).map Prod.fst =
      checker.stateAt (checker.periodStart pindexPrev) := by
  have hanswers := answers_getStateFor h pindexPrev
  rw [Answers] at hanswers
  cases hstate : checker.stateAt (checker.periodStart pindexPrev) with
  | none =>
    rw [hstate] at hanswers
    rw [show checker.getStateFor pindexPrev cache = none from hanswers]
    rfl
  | some state =>
    rw [hstate] at hanswers
    obtain ⟨cache', -, hresult⟩ := hanswers
    rw [hresult]
    rfl

/-- What a query leaves in the cache agrees as well. -/
theorem agrees_getStateFor {pindexPrev : PrevChain} {result : ThresholdState × ThresholdConditionCache}
    (hresult : checker.getStateFor pindexPrev cache = some result) :
    result.2.Agrees checker.stateAt := by
  have hanswers := answers_getStateFor h pindexPrev
  rw [Answers, hresult] at hanswers
  cases hstate : checker.stateAt (checker.periodStart pindexPrev) with
  | none =>
    rw [hstate] at hanswers
    cases hanswers
  | some state =>
    rw [hstate] at hanswers
    obtain ⟨cache', hagrees, heq⟩ := hanswers
    cases heq
    exact hagrees

end

end ThresholdConditionChecker

/-! ## Chains with the right heights -/

/-- Every entry has the height that its place in the chain gives, as `AddToBlockIndex` sets it. -/
def Leveled : PrevChain → Prop
  | [] => True
  | pindex :: below => pindex.nHeight = below.length ∧ Leveled below

theorem Leveled.drop (h : Leveled chain) (n : Nat) : Leveled (chain.drop n) := by
  induction n generalizing chain with
  | zero => exact h
  | succ n ih =>
    cases chain with
    | nil => exact h
    | cons pindex below => exact ih h.2

theorem Leveled.of_suffix {b : PrevChain} (h : Leveled chain) (hb : b <:+ chain) : Leveled b := by
  rw [suffix_iff_eq_drop.mp hb]
  exact h.drop _

/-- Walking down a chain for a height is dropping the entries above it. -/
theorem Leveled.dropWhile (h : Leveled chain) {height : Nat} (hlt : height < chain.length) :
    chain.dropWhile (fun p => (p.nHeight : Int) ≠ height) =
      chain.drop (chain.length - (height + 1)) := by
  induction chain with
  | nil => cases hlt
  | cons pindex below ih =>
    by_cases htop : height = below.length
    · rw [dropWhile_cons_of_neg (by simp [h.1, htop]), htop, length_cons, Nat.sub_self, drop_zero]
    · have hbelow : height < below.length := by
        rw [length_cons] at hlt
        omega
      have hskip : (pindex :: below).length - (height + 1) = below.length - (height + 1) + 1 := by
        rw [length_cons]
        omega
      rw [dropWhile_cons_of_pos (by simp [h.1, Ne.symm htop]), ih h.2 hbelow, hskip, drop_succ_cons]

/-- The ancestor that is `n` blocks below the head. -/
theorem Leveled.ancestorAt (h : Leveled (pindex :: below)) (n : Nat) :
    ancestorAt (pindex :: below) (pindex.nHeight - n) = (pindex :: below).drop n := by
  rw [Chratos.ancestorAt]
  have hlength : (pindex :: below).length = pindex.nHeight + 1 := by rw [length_cons, h.1]
  by_cases hn : n ≤ pindex.nHeight
  · have hcast : (pindex.nHeight : Int) - n = ((pindex.nHeight - n : Nat) : Int) := by omega
    rw [if_neg (by omega), hcast, h.dropWhile (by omega), hlength]
    congr 1
    omega
  · rw [if_pos (.inr (by omega)), drop_of_length_le (by omega)]

namespace ThresholdConditionChecker

variable {checker : ThresholdConditionChecker}

theorem periodStart_eq (h : Leveled chain) :
    checker.periodStart chain = chain.drop (chain.length % checker.period) := by
  cases chain with
  | nil => simp [periodStart]
  | cons pindex below =>
    rw [periodStart, h.ancestorAt, h.1, length_cons]

/-- The state at the end of a period comes from that of the period before, unless the median time past
is before the start of the deployment. -/
theorem stateAt_drop (h : Leveled chain) (hne : chain ≠ []) : checker.stateAt chain =
      if getMedianTimePast chain < checker.beginTime then some .THRESHOLD_DEFINED
      else checker.stateAt (chain.drop checker.period) >>= (checker.stateNext · chain) := by
  cases chain with
  | nil => exact absurd rfl hne
  | cons pindex below =>
    rw [stateAt, h.ancestorAt]

theorem exists_countCondition {n : Nat} (hn : n ≤ chain.length) :
    ∃ count, checker.countCondition n chain = some count := by
  induction n generalizing chain with
  | zero => exact ⟨0, rfl⟩
  | succ n ih =>
    cases chain with
    | nil => cases hn
    | cons pindex below =>
      obtain ⟨count, hcount⟩ := ih (Nat.le_of_succ_le_succ hn)
      rw [countCondition, hcount]
      exact ⟨_, rfl⟩

theorem exists_stateNext (hlength : checker.period ≤ chain.length) (state : ThresholdState) :
    ∃ next, checker.stateNext state chain = some next := by
  cases state with
  | THRESHOLD_STARTED =>
    rw [stateNext]
    by_cases hend : checker.endTime ≤ getMedianTimePast chain
    · exact ⟨_, if_pos hend⟩
    · obtain ⟨count, hcount⟩ : ∃ count, checker.countCondition checker.period chain = some count :=
        exists_countCondition hlength
      rw [if_neg hend, hcount]
      exact ⟨_, rfl⟩
  | _ => exact ⟨_, rfl⟩

/-- At the end of a period there are as many blocks as the count goes back over. -/
theorem exists_stateAt (h : Leveled chain) (k : Nat) (hk : chain.length = k * checker.period) :
    ∃ state, checker.stateAt chain = some state := by
  induction k generalizing chain with
  | zero =>
    rw [length_eq_zero_iff.mp (hk.trans (zero_mul _)), stateAt]
    exact ⟨_, rfl⟩
  | succ k ih =>
    have hperiod := checker.period_pos
    have hlength : chain.length = k * checker.period + checker.period := by rw [hk, Nat.succ_mul]
    have hne : chain ≠ [] := length_pos_iff.mp (by omega)
    rw [stateAt_drop h hne]
    by_cases htime : getMedianTimePast chain < checker.beginTime
    · exact ⟨_, if_pos htime⟩
    · obtain ⟨before, hbefore⟩ := ih (h.drop checker.period) (by rw [length_drop]; omega)
      rw [if_neg htime, hbefore]
      exact exists_stateNext (by omega) before

end ThresholdConditionChecker

/-! ## The deployments -/

open Consensus

/-- `VersionBitsConditionChecker`. In its condition `==` binds tighter than `?:`, so the version is
compared with the outcome of `IsSigHFEnabled`, and what `?:` chooses from are both true. -/
def versionBitsConditionChecker (params : BIP9Params) (id : DeploymentPos) :
    ThresholdConditionChecker where
  beginTime := (params.vDeployments id).nStartTime
  endTime := (params.vDeployments id).nTimeout
  period := params.nMinerConfirmationWindow
  threshold := params.nRuleChangeActivationThreshold
  condition pindex below :=
    let nVersion := int32Bits pindex.nVersion
    let fSigHF : UInt32 :=
      if params.sigActivationTime ≤ getMedianTimePast (pindex :: below) then 1 else 0
    let mask : UInt32 := 1 <<< UInt32.ofNat (params.vDeployments id).bit
    (if nVersion &&& VERSIONBITS_TOP_MASK = fSigHF then VERSIONBITS_TOP_BITS_SIG
      else VERSIONBITS_TOP_BITS) ≠ 0 && nVersion &&& mask ≠ 0
  period_pos := params.window_pos

abbrev VersionBitsCache := DeploymentPos → ThresholdConditionCache

def VersionBitsCache.empty : VersionBitsCache := fun _ => []

/-- `VersionBitsState`, with the cache it leaves. -/
def versionBitsState (params : BIP9Params) (pindexPrev : PrevChain) (pos : DeploymentPos)
    (cache : VersionBitsCache) : Option (ThresholdState × VersionBitsCache) := do
  let result ← (versionBitsConditionChecker params pos).getStateFor pindexPrev (cache pos)
  pure (result.1, Function.update cache pos result.2)

/-- The state that a query returns. -/
def queriedState (params : BIP9Params) (cache : VersionBitsCache) (pos : DeploymentPos)
    (pindexPrev : PrevChain) : Option ThresholdState :=
  (versionBitsState params pindexPrev pos cache).map Prod.fst

/-- The caches that any sequence of queries leads to, about any blocks and any deployments. -/
inductive Filled (params : BIP9Params) : VersionBitsCache → Prop where
  | empty : Filled params .empty
  | query {cache : VersionBitsCache} {result : ThresholdState × VersionBitsCache}
      (filled : Filled params cache) (pindexPrev : PrevChain) (pos : DeploymentPos)
      (answer : versionBitsState params pindexPrev pos cache = some result) :
      Filled params result.2

variable {params : BIP9Params} {cache : VersionBitsCache}

section

variable (h : Filled params cache) (pos : DeploymentPos)
include h pos

theorem Filled.agrees : (cache pos).Agrees (versionBitsConditionChecker params pos).stateAt := by
  induction h with
  | empty => exact StdMap.agrees_nil _
  | query filled pindexPrev asked answer ih =>
    obtain ⟨result, hresult, heq⟩ := Option.bind_eq_some_iff.mp answer
    cases heq
    by_cases hpos : pos = asked
    · subst hpos
      simp only [Function.update_self]
      exact ThresholdConditionChecker.agrees_getStateFor ih hresult
    · simp only [Function.update_of_ne hpos]
      exact ih

/-- Whatever has been asked before, a query returns the state that is computed without a cache. -/
theorem Filled.queriedState_eq (pindexPrev : PrevChain) : queriedState params cache pos pindexPrev =
      (versionBitsConditionChecker params pos).stateAt
        ((versionBitsConditionChecker params pos).periodStart pindexPrev) := by
  rw [← ThresholdConditionChecker.getStateFor_fst (h.agrees pos) pindexPrev, queriedState,
    versionBitsState]
  cases (versionBitsConditionChecker params pos).getStateFor pindexPrev (cache pos) <;> rfl

/-- At the end of a period the block itself is what the walk starts from. -/
theorem Filled.queriedState_periodEnd
    (hlevel : Leveled chain) (hmod : chain.length % params.nMinerConfirmationWindow = 0) :
    queriedState params cache pos chain = (versionBitsConditionChecker params pos).stateAt chain := by
  rw [h.queriedState_eq, ThresholdConditionChecker.periodStart_eq hlevel]
  show ThresholdConditionChecker.stateAt _ (chain.drop (chain.length %
    params.nMinerConfirmationWindow)) = _
  rw [hmod, drop_zero]

/-- The first period starts from `THRESHOLD_DEFINED`: nothing is below it. -/
theorem Filled.queriedState_firstPeriod
    (hlevel : Leveled chain) (hlength : chain.length = params.nMinerConfirmationWindow) :
    queriedState params cache pos chain =
      if getMedianTimePast chain < (params.vDeployments pos).nStartTime then some .THRESHOLD_DEFINED
      else (versionBitsConditionChecker params pos).stateNext .THRESHOLD_DEFINED chain := by
  have hne : chain ≠ [] := length_pos_iff.mp (hlength ▸ params.window_pos)
  have hbelow : chain.drop (versionBitsConditionChecker params pos).period = [] :=
    drop_of_length_le hlength.le
  rw [h.queriedState_periodEnd pos hlevel (by rw [hlength, Nat.mod_self]),
    ThresholdConditionChecker.stateAt_drop hlevel hne, hbelow, ThresholdConditionChecker.stateAt]
  rfl

end

end Chratos
