import Chratos.Chain.BlockTree
import Mathlib.Data.List.MinMax

/-!
# Chratos — choosing the active chain (`main.cpp`)

`ActivateBestChain` asks `FindMostWorkChain` for the best candidate, moves the tip towards it and asks
again when a block on the way turns out to be invalid. What `ConnectBlock` says about a block is a
parameter here (`Validator`): the block is valid; or it violates a rule and the validation state says
so; or `ConnectBlock` returns false and leaves the state as it was, which its callers cannot tell from
a failing disk. A call that stops early returns the tree as it is at that moment (`Halted`).

What the calls do to the mempool, the wallets and the warnings is left out: none of it is read here.
-/

namespace Chratos

/-- What `ConnectBlock` makes of a block. `fStake` says whether a rejected block had already been
raised to `BLOCK_VALID_STAKE`. -/
inductive ConnectVerdict where
  | valid
  /-- The state is invalid; `fCorruption` is `CorruptionPossible()`. -/
  | invalid (fCorruption fStake : Bool)
  /-- `return error(...)`, with a state that is not invalid. -/
  | error (fStake : Bool)
  deriving DecidableEq, Repr

structure Validator (ι : Type) where
  hashGenesisBlock : ι
  connectBlock : ι → ConnectVerdict

/-- Why a call does not come to its end. -/
inductive Stop where
  | assertion
  /-- The data of a block cannot be read back. -/
  | disk
  /-- `ConnectBlock` gave up without an invalid state. -/
  | rejected
  /-- A loop has not come to its end in the rounds it is given here. -/
  | unfinished
  deriving DecidableEq, Repr

structure Halted (ι : Type) where
  stop : Stop
  tree : BlockTree ι

namespace BlockTree

variable {ι : Type} [LinearOrder ι]

/-! ## Candidates -/

section

variable (s : BlockTree ι)

def eraseCandidate (b : ι) : BlockTree ι :=
  { s with setBlockIndexCandidates := s.setBlockIndexCandidates.filter (· ≠ b) }

/-- `InvalidChainFound`. -/
def invalidChainFound (pindexNew : ι) : BlockTree ι :=
  if s.pindexBestInvalid.elim true fun best => s.nChainWork best < s.nChainWork pindexNew
  then { s with pindexBestInvalid := some pindexNew } else s

/-- `InvalidBlockFound`. -/
def invalidBlockFound (b : ι) (fCorruption : Bool) : BlockTree ι :=
  if fCorruption then s
  else ((s.setStatus b fun st => { st with failedValid := true }).eraseCandidate b).invalidChainFound b

/-- The last element of `setBlockIndexCandidates`. -/
def bestCandidate : Option ι :=
  s.setBlockIndexCandidates.argmax s.workKey

/-- `PruneBlockIndexCandidates`. -/
def pruneBlockIndexCandidates : Except (Halted ι) (BlockTree ι) :=
  let s' := { s with
    setBlockIndexCandidates := s.setBlockIndexCandidates.filter s.notWorseThanTip }
  if s'.setBlockIndexCandidates = [] then .error ⟨.assertion, s'⟩ else .ok s'

/-- The blocks between a candidate and the active chain, from the candidate down. -/
def offChain (b : ι) : List ι :=
  (s.lineage b).takeWhile fun a => !s.contains a

/-- A block over which the chain cannot be switched. -/
def unusable (b : ι) : Bool :=
  (s.nStatus b).failed || !(s.nStatus b).haveData

variable (pindexNew pindexTest : ι)

/-- The blocks from `pindexNew` down to above `pindexTest`. -/
def above : List ι :=
  (s.lineage pindexNew).takeWhile (· ≠ pindexTest)

/-- The candidate stands on a failed block: what is above that is marked. -/
def markAbove : BlockTree ι :=
  { s.invalidChainFound pindexNew with
    nStatus := fun b =>
      if b ∈ s.above pindexNew pindexTest then { s.nStatus b with failedChild := true }
      else s.nStatus b }

/-- The candidate stands on a block without data: what is above waits for it again. -/
def relistAbove : BlockTree ι :=
  { s with
    mapBlocksUnlinked := s.mapBlocksUnlinked ++
      (s.above pindexNew pindexTest).filterMap fun b => (s.pprev b).map fun p => (p, b) }

/-- `FindMostWorkChain` takes a candidate out, and with it the blocks from there down to `pindexTest`,
which has failed or misses its data. -/
def discard : BlockTree ι :=
  let s' := if (s.nStatus pindexTest).failed then s.markAbove pindexNew pindexTest
    else s.relistAbove pindexNew pindexTest
  { s' with
    setBlockIndexCandidates :=
      s'.setBlockIndexCandidates.filter (· ∉ pindexTest :: s.above pindexNew pindexTest) }

end

/-- `FindMostWorkChain`. Each round but the last discards a candidate. -/
def findMostWorkChain : Nat → BlockTree ι → Except (Halted ι) (BlockTree ι × Option ι)
  | 0, s => .error ⟨.unfinished, s⟩
  | n + 1, s =>
    match s.bestCandidate with
    | none => .ok (s, none)
    | some pindexNew =>
      let linked := fun b => s.nChainTx b ≠ 0 ∨ s.nHeight b = 0
      match (s.offChain pindexNew).find? s.unusable with
      | none =>
        if ∀ b ∈ s.offChain pindexNew, linked b then .ok (s, some pindexNew)
        else .error ⟨.assertion, s⟩
      | some pindexTest =>
        if ∀ b ∈ pindexTest :: s.above pindexNew pindexTest, linked b
        then findMostWorkChain n (s.discard pindexNew pindexTest)
        else .error ⟨.assertion, s⟩

/-! ## Moving the tip -/

/-- `DisconnectTip`. The block and its undo data are read from disk. -/
def disconnectTip (s : BlockTree ι) : Except (Halted ι) (BlockTree ι) :=
  match s.tip with
  | none => .error ⟨.assertion, s⟩
  | some t =>
    if (s.nStatus t).haveData && (s.nStatus t).haveUndo then .ok (s.setTip (s.pprev t))
    else .error ⟨.disk, s⟩

section

variable (v : Validator ι)

/-- The status `ConnectBlock` leaves to a block it accepts. It returns early for genesis. -/
def connectedStatus (b : ι) (st : BlockStatus) : BlockStatus :=
  if b = v.hashGenesisBlock then st
  else
    let st := st.raiseValidity .stake
    if !st.haveUndo || !st.isValid .scripts
    then { st with haveUndo := true }.raiseValidity .scripts else st

/-- And to one that it rejects. -/
def rejectedStatus (fStake : Bool) (st : BlockStatus) : BlockStatus :=
  if fStake then st.raiseValidity .stake else st

inductive ConnectResult (ι : Type) where
  | connected (s : BlockTree ι)
  | invalid (s : BlockTree ι) (fCorruption : Bool)

/-- `ConnectTip`. A block that the caller holds in memory is not read from disk, but it has been
written there before. -/
def connectTip (s : BlockTree ι) (b : ι) : Except (Halted ι) (ConnectResult ι) :=
  if s.pprev b ≠ s.tip then .error ⟨.assertion, s⟩
  else if !(s.nStatus b).haveData then .error ⟨.disk, s⟩
  else match v.connectBlock b with
    | .valid => .ok (.connected ((s.setStatus b (connectedStatus v b)).setTip (some b)))
    | .invalid fCorruption fStake =>
      .ok (.invalid ((s.setStatus b (rejectedStatus fStake)).invalidBlockFound b fCorruption)
        fCorruption)
    | .error fStake => .error ⟨.rejected, s.setStatus b (rejectedStatus fStake)⟩

/-! ## `ActivateBestChainStep` -/

/-- The first loop: down to the fork. -/
def disconnectTo (pindexFork : Option ι) : Nat → BlockTree ι → Except (Halted ι) (BlockTree ι)
  | 0, s => .error ⟨.unfinished, s⟩
  | n + 1, s =>
    if s.tip = none ∨ s.tip = pindexFork then .ok s
    else s.disconnectTip >>= disconnectTo pindexFork n

/-- How a round of connecting ends: all its blocks are connected; the tip is better than the old one
was; or a block is invalid. -/
inductive RoundEnd where
  | more
  | better
  | invalid
  deriving DecidableEq

/-- The inner loop. `back` is `vpindexToConnect.back()`. -/
def connectBlocks (pindexOldTip : Option ι) (back : ι) :
    List ι → BlockTree ι → Except (Halted ι) (BlockTree ι × RoundEnd)
  | [], s => .ok (s, .more)
  | b :: bs, s =>
    s.connectTip v b >>= fun
      | .connected s' =>
        s'.pruneBlockIndexCandidates >>= fun s'' =>
          if pindexOldTip.elim true fun old => s''.nChainWork old < s''.nChainWork b
          then .ok (s'', .better) else connectBlocks pindexOldTip back bs s''
      | .invalid s' fCorruption =>
        .ok (if fCorruption then s' else s'.invalidChainFound back, .invalid)

/-- The blocks on the way to `pindexMostWork` with heights from `n` to below `target`. -/
def toConnect (s : BlockTree ι) (pindexMostWork : ι) (n target : Nat) : List ι :=
  (s.getAncestor pindexMostWork (target - 1)).elim [] fun a =>
    ((s.lineage a).takeWhile fun b => s.nHeight b + 1 ≠ n).reverse

/-- The second loop, in rounds of 32 blocks. `n` is `nHeight + 1`, the height of the next block. -/
def connectLoop (pindexOldTip : Option ι) (pindexMostWork : ι) :
    Nat → Nat → BlockTree ι → Except (Halted ι) (BlockTree ι × RoundEnd)
  | 0, _, s => .error ⟨.unfinished, s⟩
  | k + 1, n, s =>
    if n = s.nHeight pindexMostWork + 1 then .ok (s, .more)
    else
      let target := min (n + 32) (s.nHeight pindexMostWork + 1)
      let vpindexToConnect := s.toConnect pindexMostWork n target
      connectBlocks v pindexOldTip (vpindexToConnect.headD pindexMostWork) vpindexToConnect s >>= fun
        | (s', .more) => connectLoop pindexOldTip pindexMostWork k target s'
        | (s', roundEnd) => .ok (s', roundEnd)

/-- `ActivateBestChainStep`, with `fInvalidFound`. -/
def activateBestChainStep (pindexMostWork : ι) (s : BlockTree ι) :
    Except (Halted ι) (BlockTree ι × Bool) := do
  let pindexFork := s.findFork pindexMostWork
  let s' ← disconnectTo pindexFork (s.vChain.length + 1) s
  let (s'', roundEnd) ← connectLoop v s.tip pindexMostWork (s.nHeight pindexMostWork + 1)
    (pindexFork.elim 0 fun f => s.nHeight f + 1) s'
  pure (s'', roundEnd = .invalid)

/-! ## `ActivateBestChain` -/

/-- `pindexMostWork` is kept from the round before unless that found an invalid block. -/
def mostWork (kept : Option ι) (s : BlockTree ι) : Except (Halted ι) (BlockTree ι × Option ι) :=
  match kept with
  | some b => .ok (s, some b)
  | none => findMostWorkChain (s.setBlockIndexCandidates.length + 1) s

/-- The loop of `ActivateBestChain`. -/
def activateLoop : Nat → Option ι → BlockTree ι → Except (Halted ι) (BlockTree ι)
  | 0, _, s => .error ⟨.unfinished, s⟩
  | n + 1, kept, s =>
    s.mostWork kept >>= fun
      | (s, none) => .ok s
      | (s, some pindexMostWork) =>
        -- whether there is anything to do at all
        if s.tip = some pindexMostWork then .ok s
        else activateBestChainStep v pindexMostWork s >>= fun
          | (s, true) => activateLoop n none s
          | (s, false) =>
            if s.tip = some pindexMostWork then .ok s
            else activateLoop n (some pindexMostWork) s

end

/-- A round that has found the candidate to go for. -/
theorem activateLoop_succ {v : Validator ι} {n : Nat} {kept : Option ι} {s s₁ : BlockTree ι} {m : ι}
    (hfind : s.mostWork kept = .ok (s₁, some m)) : activateLoop v (n + 1) kept s =
      if s₁.tip = some m then .ok s₁ else activateBestChainStep v m s₁ >>= fun
        | (s, true) => activateLoop v n none s
        | (s, false) => if s.tip = some m then .ok s else activateLoop v n (some m) s := by
  rw [activateLoop, hfind]
  rfl

/-- `ActivateBestChain`. Between two invalid blocks the tip only rises, so the number of rounds is
bounded by the square of the number of blocks. -/
def activateBestChain (v : Validator ι) (s : BlockTree ι) : Except (Halted ι) (BlockTree ι) :=
  activateLoop v ((s.mapBlockIndex.length + 1) * (s.mapBlockIndex.length + 2)) none s

/-! ## `InvalidateBlock` -/

/-- The loop of `InvalidateBlock`: blocks are taken off the tip as long as `pindex` is active. -/
def invalidateLoop (pindex : ι) : Nat → BlockTree ι → Except (Halted ι) (BlockTree ι)
  | 0, s => .error ⟨.unfinished, s⟩
  | n + 1, s =>
    if s.contains pindex then
      match s.tip with
      | none => .error ⟨.assertion, s⟩
      | some pindexWalk =>
        ((s.setStatus pindexWalk fun st => { st with failedChild := true }).eraseCandidate
          pindexWalk).disconnectTip >>= invalidateLoop pindex n
    else .ok s

/-- The blocks that are as good as the new tip are candidates again. -/
def readdCandidates (s : BlockTree ι) : BlockTree ι :=
  { s with setBlockIndexCandidates := s.mapBlockIndex.foldl (fun candidates b =>
      if (s.nStatus b).isValid .transactions ∧ s.nChainTx b ≠ 0 ∧ s.notWorseThanTip b
      then candidates.insert b else candidates) s.setBlockIndexCandidates }

/-- `InvalidateBlock`. The block need not be active. -/
def invalidateBlock (s : BlockTree ι) (pindex : ι) : Except (Halted ι) (BlockTree ι) := do
  let s := (s.setStatus pindex fun st => { st with failedValid := true }).eraseCandidate pindex
  let s ← invalidateLoop pindex (s.vChain.length + 1) s
  pure (s.readdCandidates.invalidChainFound pindex)

/-! ## The first block -/

/-- `InitBlockIndex` on an empty index: genesis, of `nVtx` transactions, is added and activated. -/
def initBlockIndex (v : Validator ι) (nBits : UInt32) (nVtx : Nat) :
    Except (Halted ι) (BlockTree ι) :=
  ((({} : BlockTree ι).addToBlockIndex ⟨v.hashGenesisBlock, none, nBits⟩).receivedBlockTransactions
    v.hashGenesisBlock nVtx 0).activateBestChain v

end BlockTree

end Chratos
