import Chratos.Consensus.CheckBlock

/-!
# Chratos — accepting a header (`main.cpp`: `AcceptBlockHeader`)

The first thing done with a header or a block from the network. A header that is known is accepted
again unless it has failed; a new one is checked for its work (`CheckBlockHeader`, shared with
`CheckBlock`), must have a known parent that has not failed, must not fork off below the last
checkpoint, and must have a time and a version the parent allows.

What is read of the block index here is a lookup from hashes to entries with the entries below them
and the failure mark; the rest of the process is the `Env` of the other checks.
-/

namespace Chratos

open Outcome

def REJECT_OBSOLETE : Nat := 0x11

def VERSIONBITS_TOP_BITS_SIG : UInt32 := 0x71000000
def nSegWitVersionMask : UInt32 := 0x00000020

/-- What `mapBlockIndex` has for a hash: the entry with the entries below it, and whether its status
has a bit of `BLOCK_FAILED_MASK`. -/
structure HeaderIndex where
  chain : PrevChain
  fFailed : Bool

/-- What is read of the process besides the `Env`. `lastCheckpoint` is the height of the last
checkpoint that is known, if checkpoints are enabled. -/
structure HeaderContext where
  find : Uint256 → Option HeaderIndex
  nAdjustedTime : Int
  nMajorityRejectBlockOutdated : Nat
  lastCheckpoint : Option Nat

/-- A signed version as the machine has it. -/
def int32Bits (nVersion : Int) : UInt32 := UInt32.ofNat (nVersion % 2 ^ 32).toNat

/-- `%08x`. -/
def hex8 (n : Nat) : String :=
  String.ofList ((List.range 8).map fun i => Nat.digitChar (n / 16 ^ (7 - i) % 16))

def badVersion (n : Nat) : String := "bad-version(0x" ++ hex8 n ++ ")"

section

variable (env : Env) (ctx : HeaderContext)

/-- One round of the loop over the versions 2, 3 and 4. -/
def checkOutdated (nVersion : Int) (state : CValidationState)
    (chain : PrevChain) (version : Nat) : Verdict Unit :=
  rejectIf (nVersion < version && decide (ctx.nMajorityRejectBlockOutdated ≤
      countSuperMajority version ctx.nMajorityRejectBlockOutdated env.consensus.nMajorityWindow
        chain 0))
    (state.invalid REJECT_OBSOLETE (badVersion (version - 1)))

/-- `ContextualCheckBlockHeader`, on top of `chain`. -/
def contextualCheckBlockHeader (block : CBlockHeader)
    (state : CValidationState) (chain : PrevChain) : Verdict Unit := do
  rejectIf (ctx.nAdjustedTime + 2 * 60 * 60 < block.nTime.toNat)
    (state.invalid REJECT_INVALID "time-too-new")
  [2, 3, 4].forM (checkOutdated env ctx block.nVersion state chain)
  rejectIf (int32Bits block.nVersion &&& VERSIONBITS_TOP_BITS_SIG ≠ VERSIONBITS_TOP_BITS_SIG &&
      env.isSigHFEnabled chain)
    (state.invalid REJECT_OBSOLETE (badVersion (int32Bits block.nVersion).toNat))
  rejectIf (int32Bits block.nVersion &&& nSegWitVersionMask ≠ nSegWitVersionMask &&
      env.versionBitsActive .DEPLOYMENT_SEGWIT chain)
    (state.invalid REJECT_OBSOLETE (badVersion (int32Bits block.nVersion).toNat))

/-- `CheckIndexAgainstCheckpoint`: no fork below the last checkpoint, right above genesis apart. -/
def checkIndexAgainstCheckpoint (pindexPrev : CBlockIndex)
    (state : CValidationState) : Verdict Unit :=
  rejectIf (pindexPrev.hash ≠ env.consensus.hashGenesisBlock &&
      ctx.lastCheckpoint.any (pindexPrev.nHeight + 1 < ·)) (state.doS 100)

/-- A header on its own, as a block without transactions. -/
def CBlockHeader.toBlock (block : CBlockHeader) : CBlock :=
  { block with vtx := [], vchBlockSig := [] }

/-- The checks of a header that is not known yet: the entries below it. -/
def checkNewHeader (block : CBlockHeader) (state : CValidationState) : Verdict PrevChain := do
  checkBlockHeader env block.toBlock state
  match ctx.find block.hashPrevBlock with
  | none => .error (.rejected (state.doS 10 0 "bad-prevblk"))
  | some prev => do
    rejectIf prev.fFailed (state.doS 100 REJECT_INVALID "bad-prevblk")
    let pindexPrev ← orAssert prev.chain.head?
    checkIndexAgainstCheckpoint env ctx pindexPrev state
    contextualCheckBlockHeader env ctx block state prev.chain
    pure prev.chain

/-- `AcceptBlockHeader`: the entries below the header. -/
def acceptBlockHeader (block : CBlockHeader) (state : CValidationState) : Verdict PrevChain :=
  let hash := env.blockHash block.toBlock
  if hash = env.consensus.hashGenesisBlock then pure []
  else match ctx.find hash with
    | some pindex => do
      rejectIf pindex.fFailed (state.invalid 0 "duplicate")
      pure pindex.chain.tail
    | none => checkNewHeader env ctx block state

end

end Chratos
