import Chratos.Coins.Coins
import Mathlib.Data.List.Sort

/-!
# Chratos — the chain a block is checked against (`chain.h`, `consensus/params.h`)

A block is checked against the chain of index entries below it, given here as the list that
following `pprev` yields (parent first, genesis last), and against the process it runs in:
the chain parameters, the other block index entries, the transaction index, the activation
of deployments and the switches of the command line. `Env` collects the latter; it also holds
the cryptographic primitives and the script interpreter, about which nothing is assumed.
-/

namespace Chratos

/-! ## Parameters -/

namespace Consensus

/-- `Consensus::Params`, as far as block validation reads it. -/
structure Params where
  hashGenesisBlock : Uint256
  nMajorityEnforceBlockUpgrade : Nat
  nMajorityWindow : Nat
  BIP34Height : Nat
  BIP34Hash : Uint256
  powLimit : Nat
  bnProofOfWorkLimit : Nat
  nLastPOWBlock : Nat
  nFirstPOSBlock : Nat
  nStakeMinAge : UInt32
  nTargetSpacing : Nat
  nTargetTimespan : Nat
  nModifierInterval : Nat
  sigActivationTime : Nat

/-- The main network (`chainparams.cpp`). -/
def Params.main : Params where
  hashGenesisBlock := 0x00000cd81ff194741e344fe1e9bbd7964283add24f67913887dec3cbb51cb77f
  nMajorityEnforceBlockUpgrade := 750
  nMajorityWindow := 1000
  BIP34Height := 0
  BIP34Hash := 0x000005ab732033d555115e008435629fb9917bae8389369477e51974f38b4e9d
  powLimit := 2 ^ 240 - 1
  bnProofOfWorkLimit := 2 ^ 240 - 1
  nLastPOWBlock := 100
  nFirstPOSBlock := 100
  nStakeMinAge := 14400
  nTargetSpacing := 150
  nTargetTimespan := 750
  nModifierInterval := 600
  sigActivationTime := 1512990000

inductive Deployment where
  | DEPLOYMENT_CSV
  | DEPLOYMENT_SEGWIT
  deriving DecidableEq

end Consensus

def MAX_BLOCK_WEIGHT : Nat := 8000000
def MAX_BLOCK_BASE_SIZE : Nat := 2000000
def MAX_BLOCK_SIGOPS_COST : Nat := 80000
def COINBASE_MATURITY : Nat := 50
def WITNESS_SCALE_FACTOR : Nat := 4
def LOCKTIME_THRESHOLD : Nat := 500000000

/-! ## Index entries -/

structure CBlockIndex where
  hash : Uint256
  nHeight : Nat
  nVersion : Int
  nTime : UInt32
  nBits : UInt32
  nMoneySupply : Int := 0
  nDividendFund : Int := 0
  fProofOfStake : Bool := false
  fGeneratedStakeModifier : Bool := false
  stakeEntropyBit : Bool := false
  nStakeModifier : UInt64 := 0
  hashProof : Uint256 := 0
  deriving DecidableEq, Repr

/-- The entries from a block down to genesis. -/
abbrev PrevChain := List CBlockIndex

/-- `GetAncestor` from the head of the chain. -/
def getAncestor (chain : PrevChain) (height : Nat) : Option CBlockIndex :=
  chain.find? (·.nHeight = height)

/-- The median of the last eleven times, of which there is at least one. -/
def getMedianTimePast (chain : PrevChain) : Nat :=
  let times := ((chain.take 11).map (·.nTime.toNat)).insertionSort (· ≤ ·)
  times.getD (times.length / 2) 0

/-- The loop of `IsSuperMajority`: it stops at the window's end, at genesis, or when enough
has been found. -/
def countSuperMajority (minVersion : Int) (nRequired : Nat) : Nat → PrevChain → Nat → Nat
  | 0, _, nFound => nFound
  | _, [], nFound => nFound
  | window + 1, pstart :: rest, nFound =>
    if nFound < nRequired then
      countSuperMajority minVersion nRequired window rest
        (if minVersion ≤ pstart.nVersion then nFound + 1 else nFound)
    else nFound

def isSuperMajority (params : Consensus.Params) (minVersion : Int) (chain : PrevChain) : Bool :=
  params.nMajorityEnforceBlockUpgrade ≤
    countSuperMajority minVersion params.nMajorityEnforceBlockUpgrade params.nMajorityWindow chain 0

/-! ## Script flags -/

abbrev ScriptFlags := UInt32

def SCRIPT_VERIFY_NONE : ScriptFlags := 0
def SCRIPT_VERIFY_P2SH : ScriptFlags := 0x1
def SCRIPT_VERIFY_STRICTENC : ScriptFlags := 0x2
def SCRIPT_VERIFY_DERSIG : ScriptFlags := 0x4
def SCRIPT_VERIFY_LOW_S : ScriptFlags := 0x8
def SCRIPT_VERIFY_NULLDUMMY : ScriptFlags := 0x10
def SCRIPT_VERIFY_MINIMALDATA : ScriptFlags := 0x40
def SCRIPT_VERIFY_DISCOURAGE_UPGRADABLE_NOPS : ScriptFlags := 0x80
def SCRIPT_VERIFY_CLEANSTACK : ScriptFlags := 0x100
def SCRIPT_VERIFY_CHECKLOCKTIMEVERIFY : ScriptFlags := 0x200
def SCRIPT_VERIFY_CHECKSEQUENCEVERIFY : ScriptFlags := 0x400
def SCRIPT_VERIFY_WITNESS : ScriptFlags := 0x800
def SCRIPT_VERIFY_DISCOURAGE_UPGRADABLE_WITNESS_PROGRAM : ScriptFlags := 0x1000

/-- The standard flags of `policy.h` without the mandatory one, `SCRIPT_VERIFY_P2SH`. -/
def STANDARD_NOT_MANDATORY_VERIFY_FLAGS : ScriptFlags :=
  SCRIPT_VERIFY_DERSIG ||| SCRIPT_VERIFY_STRICTENC ||| SCRIPT_VERIFY_MINIMALDATA |||
    SCRIPT_VERIFY_NULLDUMMY ||| SCRIPT_VERIFY_DISCOURAGE_UPGRADABLE_NOPS |||
    SCRIPT_VERIFY_CLEANSTACK ||| SCRIPT_VERIFY_CHECKLOCKTIMEVERIFY |||
    SCRIPT_VERIFY_CHECKSEQUENCEVERIFY ||| SCRIPT_VERIFY_LOW_S ||| SCRIPT_VERIFY_WITNESS |||
    SCRIPT_VERIFY_DISCOURAGE_UPGRADABLE_WITNESS_PROGRAM

/-! ## The process -/

/-- What the checks read besides the block, the view and the chain below.

* `verifyScript` is `VerifyScript` for an input of a transaction, given the script and the
  amount of the output it spends; a failure names its `ScriptErrorString`;
* `getTransaction` is the transaction index: a transaction and the hash of its block;
* `checkpointAncestor` is the ancestor of the last checkpoint at a height, when checkpoints
  are enabled and the checkpoint is known;
* `totalWithDividend` is `CDividend::GetTotalWithDividend` over the ledger as it stands;
  `none` is the division by zero its big-integer arithmetic throws on. -/
structure Env where
  consensus : Consensus.Params
  hash256 : List UInt8 → Uint256
  hash9 : List UInt8 → Uint256
  verifyPubKey : List UInt8 → Uint256 → List UInt8 → Bool
  verifyScript : CScript → CScript → List (List UInt8) → ScriptFlags → CTransaction → Nat →
    Int → Except String Unit
  mapBlockIndex : Uint256 → Option CBlockIndex
  mapBlockIndexSize : Nat
  activeHeight : Int
  getTransaction : Uint256 → Option (CTransaction × Uint256)
  versionBitsActive : Consensus.Deployment → PrevChain → Bool
  checkpointAncestor : Nat → Option Uint256
  totalWithDividend : Int → Nat → Option Int
  fTestnet : Bool
  fAddressIndex : Bool
  fSpentIndex : Bool

namespace Env

variable (env : Env)

def txHash (tx : CTransaction) : Uint256 := tx.getHash env.hash256

def blockHash (block : CBlock) : Uint256 :=
  block.toCBlockHeader.getHash env.hash256 env.hash9

/-- `IsSigHFEnabled` of the parent. -/
def isSigHFEnabled (chain : PrevChain) : Bool :=
  chain ≠ [] ∧ env.consensus.sigActivationTime ≤ getMedianTimePast chain

/-- `GetAvailableAmount`: the value of an output, dividends included. -/
def availableAmount (c : CCoins) (o : CTxOut) : Option Int :=
  env.totalWithDividend o.nValue c.nHeight

end Env

/-! ## Lock times -/

def isFinalTx (tx : CTransaction) (nBlockHeight nBlockTime : Nat) : Bool :=
  tx.nLockTime = 0 || (tx.nLockTime.toNat <
      if tx.nLockTime.toNat < LOCKTIME_THRESHOLD then nBlockHeight else nBlockTime) ||
    tx.vin.all (·.nSequence = 0xffffffff)

/-- The relative lock of one input: last invalid height and time. `none` is an ancestor the
code dereferences without looking. -/
def sequenceLock (chain : PrevChain) (nMin : Int × Int) (input : CTxIn × Nat) :
    Option (Int × Int) :=
  let nSequence := input.1.nSequence
  let nCoinHeight := input.2
  let value : Nat := nSequence.toNat % 2 ^ 16
  if nSequence &&& 0x80000000 ≠ 0 then some nMin
  else if nSequence &&& 0x400000 ≠ 0 then do
    let _ ← getAncestor chain (nCoinHeight - 1)
    let nCoinTime := getMedianTimePast (chain.dropWhile (·.nHeight ≠ nCoinHeight - 1))
    pure (nMin.1, max nMin.2 (nCoinTime + value * 512 - 1))
  else some (max nMin.1 (nCoinHeight + value - 1), nMin.2)

/-- `SequenceLocks` for a block on top of `chain`; `fVerify` is `LOCKTIME_VERIFY_SEQUENCE`. -/
def sequenceLocks (tx : CTransaction) (fVerify : Bool) (prevheights : List Nat)
    (chain : PrevChain) (nHeight : Nat) : Option Bool :=
  if chain = [] then none
  else do
    let lock ←
      if fVerify ∧ 2 ≤ tx.nVersion % 2 ^ 32 then
        (tx.vin.zip prevheights).foldlM (sequenceLock chain) (-1, -1)
      else some (-1, -1)
    pure (!(nHeight ≤ lock.1 || getMedianTimePast chain ≤ lock.2))

end Chratos
