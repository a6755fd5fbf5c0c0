import Chratos.Chain.Context
import Chratos.Consensus.State

/-!
# Chratos — targets, kernels and rewards (`main.cpp`, `pow.cpp`, `pos.cpp`)

The rules that decide whether a block may extend the chain at all: the compact form of
targets, the target required of the next block, the proof-of-work check of the first blocks,
the stake kernel and the stake modifier, and the two reward schedules.

Targets are computed with unbounded integers, as the code does. Timestamps and ages are
32-bit and wrap.
-/

namespace Chratos

open Codec

/-! ## Compact targets -/

/-- `CBigNum::SetCompact`: size byte, then a mantissa whose top bit is a sign. -/
def setCompact (nCompact : UInt32) : Int :=
  let nSize := nCompact.toNat / 2 ^ 24
  let mantissa := nCompact.toNat % 2 ^ 23
  let magnitude : Nat :=
    if nSize ≤ 3 then mantissa / 256 ^ (3 - nSize) else mantissa * 256 ^ (nSize - 3)
  if 2 ^ 23 ≤ nCompact.toNat % 2 ^ 24 then -magnitude else magnitude

/-- Number of bytes of `n`, by halving the fuel away. -/
def byteLength : Nat → Nat → Nat
  | 0, _ => 0
  | fuel + 1, n => if n = 0 then 0 else byteLength fuel (n / 256) + 1

/-- `CBigNum::GetCompact` of a non-negative number below `256 ^ 64`: one byte more when the
leading one would read as a sign. -/
def getCompact (n : Nat) : UInt32 :=
  let size := byteLength 64 n
  let nSize := if 128 ≤ n / 256 ^ (size - 1) then size + 1 else size
  let mantissa := if nSize ≤ 3 then n * 256 ^ (3 - nSize) else n / 256 ^ (nSize - 3)
  UInt32.ofNat (nSize * 2 ^ 24 + mantissa)

/-! ## The next target -/

/-- The last entry of the wanted kind, or genesis. -/
def getLastBlockIndex (fProofOfStake : Bool) : PrevChain → PrevChain
  | [] => []
  | [genesis] => [genesis]
  | pindex :: pprev :: rest =>
    if pindex.fProofOfStake ≠ fProofOfStake then getLastBlockIndex fProofOfStake (pprev :: rest)
    else pindex :: pprev :: rest

def bnProofOfStakeLimitV2 : Nat := (2 ^ 256 - 1) / 2 ^ 20

/-- The exponential retarget from the last two entries of the kind. -/
def retarget (params : Consensus.Params) (prev prevPrev : CBlockIndex) (bnTargetLimit : Nat) :
    UInt32 :=
  let spacing : Int := params.nTargetSpacing
  let elapsed : Int := (prev.nTime.toNat : Int) - prevPrev.nTime.toNat
  let nActualSpacing := if elapsed < 0 then spacing else elapsed
  let nInterval : Int := params.nTargetTimespan / params.nTargetSpacing
  let bnNew := (setCompact prev.nBits * ((nInterval - 1) * spacing + nActualSpacing +
    nActualSpacing)).tdiv ((nInterval + 1) * spacing)
  getCompact (if bnNew ≤ 0 ∨ bnTargetLimit < bnNew then bnTargetLimit else bnNew.toNat)

/-- `GetNextTargetRequired`; `none` is the null entry the stake limit is asked of. -/
def getNextTargetRequired (params : Consensus.Params) (chain : PrevChain)
    (fProofOfStake : Bool) : Option UInt32 :=
  let bnTargetLimit := if fProofOfStake then bnProofOfStakeLimitV2 else params.bnProofOfWorkLimit
  match getLastBlockIndex fProofOfStake chain with
  | [] => if fProofOfStake then none else some (getCompact bnTargetLimit)
  | [_] => some (getCompact bnTargetLimit)
  | pindexPrev :: below =>
    match getLastBlockIndex fProofOfStake below with
    | pindexPrevPrev :: _ :: _ => some (retarget params pindexPrev pindexPrevPrev bnTargetLimit)
    | _ => some (getCompact bnTargetLimit)

/-! ## Proof of work -/

section

variable (env : Env)

/-- `CheckProofOfWork`: past the last proof-of-work block nothing is checked. The overflow
test is on the word that `arith_uint256::SetCompact` has kept. -/
def checkProofOfWork (hash : Uint256) (nBits : UInt32) : Bool :=
  if (env.consensus.nLastPOWBlock : Int) ≤ env.activeHeight then true
  else
    let nSize := nBits.toNat / 2 ^ 24
    let nWord := if nSize ≤ 3 then nBits.toNat % 2 ^ 23 / 256 ^ (3 - nSize)
      else nBits.toNat % 2 ^ 23
    let bnTarget := if nSize ≤ 3 then nWord else nWord * 256 ^ (nSize - 3) % 2 ^ 256
    let fNegative := nWord ≠ 0 ∧ 2 ^ 23 ≤ nBits.toNat % 2 ^ 24
    let fOverflow := nWord ≠ 0 ∧
      (34 < nSize ∨ (0xff < nWord ∧ 33 < nSize) ∨ (0xffff < nWord ∧ 32 < nSize))
    !(fNegative ∨ bnTarget = 0 ∨ fOverflow ∨ env.consensus.powLimit < bnTarget ∨
      bnTarget < hash.toNat)

/-! ## The stake kernel -/

def STAKE_TIMESTAMP_MASK : UInt32 := 15

def checkCoinStakeTimestamp (nHeight : Nat) (nTimeBlock nTimeTx : UInt32) : Bool :=
  if 0 < nHeight then nTimeBlock = nTimeTx ∧ nTimeTx &&& STAKE_TIMESTAMP_MASK = 0
  else nTimeBlock = nTimeTx

/-- The kernel hash of a coinstake's first input. -/
def kernelHash (nStakeModifier : UInt64) (nTimeBlockFrom : UInt32)
    (txPrev : CTransaction) (prevout : COutPoint) (nTimeTx : UInt32) : Uint256 :=
  env.hash256 (leBytes 8 nStakeModifier.toNat ++ serUInt32 nTimeBlockFrom ++
    serUInt32 txPrev.nTime ++ prevout.serialize ++ serUInt32 nTimeTx)

/-- `CheckStakeKernelHashV2`; the proof hash when the kernel passes. -/
def checkStakeKernelHash (pindexPrev : CBlockIndex) (nBits nTimeBlockFrom : UInt32)
    (txPrev : CTransaction) (prevout : COutPoint) (nTimeTx : UInt32) : Verdict (Option Uint256) :=
  if nTimeTx < txPrev.nTime then pure none
  else if nTimeTx < nTimeBlockFrom + env.consensus.nStakeMinAge then pure none
  else do
    let out ← orAssert txPrev.vout[prevout.n.toNat]?
    let hashProof := kernelHash env pindexPrev.nStakeModifier nTimeBlockFrom txPrev prevout nTimeTx
    if setCompact nBits * out.nValue < hashProof.toNat then pure none else pure (some hashProof)

/-- `CheckProofOfStake` with signature checking off, the way `ConnectBlock` calls it. `none`
is `false`. -/
def checkProofOfStake (chain : PrevChain) (tx : CTransaction) (nBits : UInt32) :
    Verdict (Option Uint256) :=
  if !tx.isCoinStake then pure none
  else do
    let txin ← orAssert tx.vin.head?
    match env.getTransaction txin.prevout.hash with
    | none => pure none
    | some (txPrev, hashBlock) =>
      match env.mapBlockIndex hashBlock with
      | none => pure none
      | some pblockindex =>
        if txin.prevout.hash ≠ env.txHash txPrev then pure none
        else do
          let pindexPrev ← orAssert chain.head?
          checkStakeKernelHash env pindexPrev nBits pblockindex.nTime txPrev txin.prevout tx.nTime

/-- The coin age one input adds, in cent-seconds; `none` is a refusal. -/
def addCoinAge (nTime : UInt32) (bnCentSecond : Int) (txin : CTxIn) : Verdict (Option Int) :=
  match env.getTransaction txin.prevout.hash with
  | none => pure (some bnCentSecond)
  | some (txPrev, hashBlock) =>
    if nTime < txPrev.nTime then pure none
    else match env.mapBlockIndex hashBlock with
      | none => pure none
      | some pblockindex =>
        if nTime < pblockindex.nTime + env.consensus.nStakeMinAge then pure (some bnCentSecond)
        else do
          let out ← orAssert txPrev.vout[txin.prevout.n.toNat]?
          pure (some (bnCentSecond +
            (out.nValue * ((nTime - txPrev.nTime).toNat : Int)).tdiv 1000000))

/-- `TransactionGetCoinAge`; `none` is `false`. -/
def transactionGetCoinAge (tx : CTransaction) : Verdict (Option Nat) :=
  if tx.isCoinBase then pure (some 0)
  else do
    let age ← tx.vin.foldlM (fun acc txin =>
      match acc with
      | none => pure none
      | some age => addCoinAge env tx.nTime age txin) (some 0)
    pure (age.map fun bnCentSecond =>
      (((bnCentSecond * 1000000).tdiv COIN).tdiv 86400).toNat % 2 ^ 64)

/-! ## The stake modifier -/

/-- The last generated modifier and its time; genesis stands in when there is none. -/
def getLastStakeModifier : PrevChain → Option (UInt64 × Nat)
  | [] => none
  | [genesis] =>
    if genesis.fGeneratedStakeModifier then some (genesis.nStakeModifier, genesis.nTime.toNat)
    else some (1, genesis.nTime.toNat)
  | pindex :: pprev :: rest =>
    if pindex.fGeneratedStakeModifier then some (pindex.nStakeModifier, pindex.nTime.toNat)
    else getLastStakeModifier (pprev :: rest)

def MODIFIER_INTERVAL_RATIO : Nat := 3

def selectionIntervalSection (params : Consensus.Params) (nSection : Nat) : Nat :=
  params.nModifierInterval * 63 / (63 + (63 - nSection) * ( MODIFIER_INTERVAL_RATIO - 1))

/-- `base_blob::operator<`: of the stored bytes, from the last one on, the first difference decides. -/
def uint256Lt (a b : Uint256) : Bool := (serUint256 a).reverse < (serUint256 b).reverse

/-- The loop of `SelectBlockFromCandidates`: `best` is the choice so far. -/
def selectBlockLoop (selected : List Uint256) (stop : Int) (modifierPrev : UInt64) :
    List (Nat × Uint256) → Option (Uint256 × CBlockIndex) → Option (Option CBlockIndex)
  | [], best => some (best.map (·.2))
  | item :: items, best =>
    match env.mapBlockIndex item.2 with
    | none => none
    | some pindex =>
      if best.isSome ∧ stop < pindex.nTime.toNat then some (best.map (·.2))
      else if pindex.hash ∈ selected then selectBlockLoop selected stop modifierPrev items best
      else
        let h := env.hash256 (serUint256 pindex.hashProof ++ leBytes 8 modifierPrev.toNat)
        let hashSelection := if pindex.fProofOfStake then h >>> 32 else h
        let better := match best with
          | none => true
          | some (hashBest, _) => uint256Lt hashSelection hashBest
        selectBlockLoop selected stop modifierPrev items
          (if better then some (hashSelection, pindex) else best)

/-- The rounds that pick one bit each: remaining rounds, round number, end of the interval,
blocks picked, bits picked. -/
def modifierRounds (candidates : List (Nat × Uint256)) (modifierPrev : UInt64) :
    Nat → Nat → Int → List Uint256 → UInt64 → Option UInt64
  | 0, _, _, _, bits => some bits
  | rounds + 1, nRound, stop, selected, bits =>
    let stop := stop + selectionIntervalSection env.consensus nRound
    match selectBlockLoop env selected stop modifierPrev candidates none with
    | some (some pindex) =>
      modifierRounds candidates modifierPrev rounds (nRound + 1) stop (pindex.hash :: selected)
        (bits ||| ((if pindex.stakeEntropyBit then 1 else 0) <<< UInt64.ofNat nRound))
    | _ => none

/-- `sort` on pairs of a time and a hash. -/
def candidateLe (a b : Nat × Uint256) : Bool :=
  a.1 < b.1 || (a.1 = b.1 && !uint256Lt b.2 a.2)

/-- `ComputeNextStakeModifier`: the modifier and whether it is a new one. -/
def computeNextStakeModifier (chain : PrevChain) : Option (UInt64 × Bool) :=
  match chain, getLastStakeModifier chain with
  | pindexPrev :: _, some (nStakeModifier, nModifierTime) =>
    let interval := env.consensus.nModifierInterval
    let prevTime := pindexPrev.nTime.toNat
    if prevTime / interval ≤ nModifierTime / interval then some (nStakeModifier, false)
    else
      let nSelectionInterval : Nat :=
        ((List.range 64).map (selectionIntervalSection env.consensus)).sum
      let start : Int := (prevTime / interval * interval : Nat) - (nSelectionInterval : Int)
      let candidates := (((chain.takeWhile (fun b => start ≤ b.nTime.toNat)).map
        (fun b => (b.nTime.toNat, b.hash))).reverse).insertionSort (fun a b => candidateLe a b)
      (modifierRounds env candidates nStakeModifier (min 64 candidates.length) 0 start [] 0).map
        (·, true)
  | _, _ => none

end

/-! ## Rewards -/

def getBlockSubsidy (nHeight : Nat) : Int :=
  if nHeight ≤ 100 then (7889400 / 100) * COIN else 12 * COIN

def getProofOfStakeReward (nHeight : Nat) (nFees : Int) : Int :=
  let nRewardCoinBlock : Int :=
    if 100 < nHeight ∧ nHeight ≤ 986175 then 12
    else if 986175 < nHeight ∧ nHeight ≤ 1972350 then 6
    else if 1972350 < nHeight ∧ nHeight ≤ 3944700 then 3
    else 0
  int64 (nRewardCoinBlock * COIN + nFees)

theorem getBlockSubsidy_nonneg (h : Nat) : 0 ≤ getBlockSubsidy h := by
  unfold getBlockSubsidy COIN
  split <;> decide

/-- The schedule pays nothing negative, and the fees come on top. -/
theorem getProofOfStakeReward_eq (h : Nat) (nFees : Int) :
    getProofOfStakeReward h nFees = int64 (getProofOfStakeReward h 0 + nFees) ∧
      0 ≤ getProofOfStakeReward h 0 := by
  unfold getProofOfStakeReward COIN
  split_ifs <;> exact ⟨by simp [add_comm], by decide⟩

end Chratos
