import Chratos.Consensus.TxInputs
import Chratos.Index.Rows

/-!
# Chratos — connecting a block (`main.cpp`: `ConnectBlock`)

The function is cut where the code pauses: the checks of the block as a whole
(`checkStake`, `checkBIP30`), the loop over the transactions (`connectTx`), and the reward
(`checkReward`). Every rejection point keeps the state it reports. Three of them report
nothing: a bad block signature in `CheckBlock`, a failed kernel, and a coinstake whose age
cannot be computed leave by `return error(...)`.

With script-check threads the scripts of the loop are queued and the queue's verdict is
waited for, but the code does nothing with it.
-/

namespace Chratos

open Outcome

variable {q' q : List CScriptCheck} {fQueue : Bool} {n : Nat}

/-- Where the block goes: its height and hash, and the entries below. The hash is missing when
a block is only tried out. -/
structure BlockPlace where
  nHeight : Nat
  phashBlock : Option Uint256
  pprev : PrevChain

/-! ## Checks of the block as a whole -/

/-- `pindex->pprev->GetBlockHash()`, or zero. -/
def prevHash (pprev : PrevChain) : Uint256 :=
  match pprev with
  | [] => 0
  | pindexPrev :: _ => pindexPrev.hash

section

variable (env : Env) (block : CBlock) (state : CValidationState) (pprev : PrevChain)

/-- The hash that proves the block. A failed kernel is a bare error. -/
def blockProof : Verdict Uint256 :=
  if block.isProofOfStake then do
    let tx ← orAssert block.vtx[1]?
    let proof ← checkProofOfStake env pprev tx block.nBits
    match proof with
    | some hashProof => pure hashProof
    | none => .error (.rejected state)
  else pure (env.hash9 block.toCBlockHeader.serialize)

/-- Target, kernel and stake modifier: the proof hash and the modifier. -/
def checkStake : Verdict (Uint256 × UInt64 × Bool) := do
  let nBits ← orAssert (getNextTargetRequired env.consensus pprev block.isProofOfStake)
  rejectIf (block.nBits != nBits) (state.doS 1 REJECT_INVALID "bad-diffbits")
  let hashProof ← blockProof env block state pprev
  match computeNextStakeModifier env pprev with
  | some modifier => pure (hashProof, modifier)
  | none => .error (.rejected (state.doS 1 REJECT_INVALID "bad-stake-modifier"))

/-- `fScriptChecks`: off below the last checkpoint and before the activation time. -/
def scriptChecksEnabled (pindex : BlockPlace) : Bool :=
  !(pindex.phashBlock.isSome && env.checkpointAncestor pindex.nHeight = pindex.phashBlock) &&
    env.isSigHFEnabled pindex.pprev

/-- No unspent transaction is overwritten; only asked of blocks without a hash. -/
def checkBIP30 (pindex : BlockPlace) (view : CCoinsView) : Verdict Unit :=
  let fBIP34 := (getAncestor pindex.pprev env.consensus.BIP34Height).any
    (·.hash = env.consensus.BIP34Hash)
  rejectIf (pindex.phashBlock.isNone && !fBIP34 &&
      block.vtx.any fun tx => !(view.coins (env.txHash tx)).isPruned)
    (state.doS 100 REJECT_INVALID "bad-txns-BIP30")

/-- The script flags in force. -/
def connectFlags : ScriptFlags :=
  (if 1333238400 ≤ block.nTime.toNat then SCRIPT_VERIFY_P2SH else SCRIPT_VERIFY_NONE) |||
  (if 3 ≤ block.nVersion ∧ isSuperMajority env.consensus 3 pprev then SCRIPT_VERIFY_DERSIG
    else 0) |||
  (if 4 ≤ block.nVersion ∧ isSuperMajority env.consensus 4 pprev then
    SCRIPT_VERIFY_CHECKLOCKTIMEVERIFY else 0) |||
  (if env.versionBitsActive .DEPLOYMENT_CSV pprev then SCRIPT_VERIFY_CHECKSEQUENCEVERIFY
    else 0) |||
  (if env.versionBitsActive .DEPLOYMENT_SEGWIT pprev then SCRIPT_VERIFY_WITNESS else 0)

/-! ## One transaction -/

/-- What the loop carries. -/
structure ConnectState where
  view : CCoinsView
  nFees : Int := 0
  nSigOpsCost : Nat := 0
  nStakeReward : Int := 0
  strDZeel : List UInt8 := []
  blockundo : CBlockUndo := []
  rows : IndexRows := {}
  nMoneySupply : Int
  nDividendFund : Int

variable (tx : CTransaction)

/-- Inputs there and relative locks run out. -/
def checkSpendable (state : CValidationState) (view : CCoinsView)
    (pindex : BlockPlace) : Verdict Unit := do
  rejectIf (!view.haveInputs tx) (state.doS 100 REJECT_INVALID "bad-txns-inputs-missingorspent")
  let fFinal ← orAssert (sequenceLocks tx (env.versionBitsActive .DEPLOYMENT_CSV pindex.pprev)
    (tx.vin.map fun i => (view.coins i.prevout.hash).nHeight) pindex.pprev pindex.nHeight)
  rejectIf (!fFinal) (state.doS 100 REJECT_INVALID "bad-txns-nonfinal")

/-- `GetTransactionSigOpCost`. Counting witnesses asserts that the P2SH flag is set too. -/
def getTransactionSigOpCost (view : CCoinsView) (flags : ScriptFlags) : Verdict Nat :=
  let legacy := getLegacySigOpCount tx * WITNESS_SCALE_FACTOR
  if tx.isCoinBase then pure legacy
  else do
    let prevouts ← orAssert (tx.vin.mapM fun i => view.output? i.prevout)
    let ins := tx.vin.zip prevouts
    let p2sh := (ins.map fun (i, o) => if isPayToScriptHash o.scriptPubKey then
      getSigOpCountFor o.scriptPubKey i.scriptSig else 0).sum
    let fWitness := flags &&& SCRIPT_VERIFY_WITNESS ≠ 0
    failIf (fWitness ∧ tx.vin ≠ [] ∧ flags &&& SCRIPT_VERIFY_P2SH = 0) .asserted
    let witness := (ins.zipIdx.map fun (io, n) => if fWitness then
      countWitnessSigOps io.1.scriptSig io.2.scriptPubKey (tx.wit.getD n []) else 0).sum
    pure (legacy + (if flags &&& SCRIPT_VERIFY_P2SH ≠ 0 then p2sh * WITNESS_SCALE_FACTOR else 0) +
      witness)

/-- Fees, and the reward of a coinstake. The last coinstake met is the one that counts. -/
def tallyTx (s : ConnectState) : Verdict (Int × Int × List UInt8) :=
  if tx.isCoinBase then pure (s.nFees, s.nStakeReward, s.strDZeel)
  else do
    let nValueIn ← getValueIn env s.view tx
    let nValueOut ← orThrow tx.getValueOut
    if tx.isCoinStake then pure (s.nFees, int64 (nValueOut - nValueIn), tx.strDZeel)
    else pure (int64 (s.nFees + (nValueIn - nValueOut)), s.nStakeReward, s.strDZeel)

/-- What the transaction adds to the money supply. -/
def mintedBy (nHeight : Nat) : Verdict Int :=
  if tx.isCoinBase then orThrow tx.getValueOut
  else if tx.isCoinStake then pure (getProofOfStakeReward nHeight 0)
  else pure 0

/-- Its contributions to the dividend fund. -/
def dividendOf : Int :=
  ((tx.vout.filter (isDividendContribution ·.scriptPubKey)).map CTxOut.nValue).sum

/-- The index rows of its inputs, with the outputs the view has for them. -/
def spendRows (i : Nat) (view : CCoinsView) (nHeight : Nat) : IndexRows :=
  if tx.isCoinBase then {}
  else .collect (fun input => match view.output? input.1.prevout with
    | some prevout => connectInputRows env.fAddressIndex env.fSpentIndex nHeight i (env.txHash tx)
        input.2 input.1 prevout
    | none => {}) tx.vin.zipIdx

/-- The index rows of its outputs. -/
def receiveRows (i nHeight : Nat) : IndexRows :=
  if env.fAddressIndex then
    .collect (fun out => connectOutputRows nHeight i (env.txHash tx) out.2 out.1) tx.vout.zipIdx
  else {}

/-- One round of the loop. `fQueue` says whether script checks are queued; the second result
is what the round queued. -/
def connectTx (state : CValidationState) (pindex : BlockPlace)
    (fQueue : Bool) (s : ConnectState × List CScriptCheck) (txi : CTransaction × Nat) :
    Verdict (ConnectState × List CScriptCheck) := do
  let tx := txi.1
  let flags := connectFlags env block pindex.pprev
  onlyIf (!tx.isCoinBase) (checkSpendable env tx state s.1.view pindex)
  let cost ← getTransactionSigOpCost tx s.1.view flags
  rejectIf (MAX_BLOCK_SIGOPS_COST < s.1.nSigOpsCost + cost)
    (state.doS 100 REJECT_INVALID "bad-blk-sigops")
  let (nFees, nStakeReward, strDZeel) ← tallyTx env tx s.1
  let vChecks ← checkInputs env tx state s.1.view (scriptChecksEnabled env pindex) flags fQueue
  let minted ← mintedBy tx pindex.nHeight
  let (view, undo) ← updateCoins (env.txHash tx) tx s.1.view pindex.nHeight
  pure ({
    view := view
    nFees := nFees
    nSigOpsCost := s.1.nSigOpsCost + cost
    nStakeReward := nStakeReward
    strDZeel := strDZeel
    blockundo := if 0 < txi.2 then s.1.blockundo ++ [undo] else s.1.blockundo
    rows := (s.1.rows.append (spendRows env tx txi.2 s.1.view pindex.nHeight)).append
      (receiveRows env tx txi.2 pindex.nHeight)
    nMoneySupply := int64 (s.1.nMoneySupply + minted)
    nDividendFund := int64 (s.1.nDividendFund + dividendOf tx) }, s.2 ++ vChecks)

/-! ## The reward -/

/-- Coinbase and coinstake against the schedule. A coin age that cannot be computed is a bare
error. -/
def checkReward (state : CValidationState) (nHeight : Nat) (s : ConnectState) : Verdict Unit :=
  if block.isProofOfStake then do
    let tx ← orAssert block.vtx[1]?
    let age ← transactionGetCoinAge env tx
    match age with
    | none => .error (.rejected state)
    | some _ => rejectIf (getProofOfStakeReward nHeight s.nFees < s.nStakeReward) (state.doS 100)
  else do
    let tx ← orAssert block.vtx.head?
    let nValueOut ← orThrow tx.getValueOut
    rejectIf (int64 (s.nFees + getBlockSubsidy nHeight) < nValueOut)
      (state.doS 100 REJECT_INVALID "bad-cb-amount")

/-! ## The whole -/

/-- What an accepted block leaves behind. -/
structure Connected where
  view : CCoinsView
  blockundo : CBlockUndo := []
  rows : IndexRows := {}
  pindex : CBlockIndex
  strDZeel : List UInt8 := []
  vChecks : List CScriptCheck := []

/-- The index entry the block is given. -/
def newIndex (pindex : BlockPlace) (proof : Uint256)
    (modifier : UInt64 × Bool) (nMoneySupply nDividendFund : Int) : CBlockIndex where
  hash := pindex.phashBlock.getD 0
  nHeight := pindex.nHeight
  nVersion := block.nVersion
  nTime := block.nTime
  nBits := block.nBits
  nMoneySupply := nMoneySupply
  nDividendFund := nDividendFund
  fProofOfStake := block.isProofOfStake
  fGeneratedStakeModifier := modifier.2
  stakeEntropyBit := (env.blockHash block).getLsbD 0
  nStakeModifier := modifier.1
  hashProof := proof

end

/-- The state the loop starts from. -/
def startState (view : CCoinsView) (pprev : PrevChain) : ConnectState where
  view := view
  nMoneySupply := (pprev.head?.map (·.nMoneySupply)).getD 0
  nDividendFund := (pprev.head?.map (·.nDividendFund)).getD 0

section

variable (env : Env) (nScriptCheckThreads : Nat) (block : CBlock) (state : CValidationState)
  (pindex : BlockPlace)

/-- `ConnectBlock`, with the number of script-check threads. The last line of the source's
loop, `if (!control.Wait()){}`, has no effect: what was queued is only returned. -/
def connectBlock (view : CCoinsView) (fJustCheck : Bool) : Verdict Connected := do
  checkBlock env block state (!fJustCheck) (!fJustCheck)
  failIf (prevHash pindex.pprev ≠ view.hashBlock) .asserted
  let finish (view : CCoinsView) : CCoinsView :=
    if fJustCheck then view else view.setBestBlock (pindex.phashBlock.getD 0)
  if env.blockHash block = env.consensus.hashGenesisBlock then
    pure { view := finish view, pindex := newIndex env block pindex 0 (0, false) 0 0 }
  else do
    let proof ← checkStake env block state pindex.pprev
    checkBIP30 env block state pindex view
    let s ← block.vtx.zipIdx.foldlM
      (connectTx env block state pindex (nScriptCheckThreads ≠ 0)) (startState view pindex.pprev, [])
    checkReward env block state pindex.nHeight s.1
    pure {
      view := finish s.1.view
      blockundo := s.1.blockundo
      rows := s.1.rows
      pindex := newIndex env block pindex proof.1 proof.2 s.1.nMoneySupply s.1.nDividendFund
      strDZeel := s.1.strDZeel
      vChecks := s.2 }

/-! ## What one round does

`TxEffect` is the round without its call of `CheckInputs`, the only place where a queue makes
a difference. -/

structure TxEffect (txi : CTransaction × Nat) (s s' : ConnectState) : Prop where
  spendable : txi.1.isCoinBase = false → checkSpendable env txi.1 state s.view pindex = .ok ()
  cost : ∃ cost, getTransactionSigOpCost txi.1 s.view (connectFlags env block pindex.pprev) =
      .ok cost ∧ s.nSigOpsCost + cost ≤ MAX_BLOCK_SIGOPS_COST ∧
      s'.nSigOpsCost = s.nSigOpsCost + cost
  tally : tallyTx env txi.1 s = .ok (s'.nFees, s'.nStakeReward, s'.strDZeel)
  minted : ∃ minted, mintedBy txi.1 pindex.nHeight = .ok minted ∧
    s'.nMoneySupply = int64 (s.nMoneySupply + minted)
  update : ∃ undo, updateCoins (env.txHash txi.1) txi.1 s.view pindex.nHeight =
      .ok (s'.view, undo) ∧
    s'.blockundo = if 0 < txi.2 then s.blockundo ++ [undo] else s.blockundo
  rows : s'.rows = (s.rows.append (spendRows env txi.1 txi.2 s.view pindex.nHeight)).append
    (receiveRows env txi.1 txi.2 pindex.nHeight)
  dividend : s'.nDividendFund = int64 (s.nDividendFund + dividendOf txi.1)

end

section

variable {env : Env} {block : CBlock} {state : CValidationState} {pindex : BlockPlace}
  {s' s : ConnectState} {txi : CTransaction × Nat}

theorem connectTx_eq_ok : connectTx env block state pindex fQueue (s, q) txi = .ok (s', q') ↔
    ∃ cs, InputChecks env txi.1 state s.view (scriptChecksEnabled env pindex)
      (connectFlags env block pindex.pprev) cs ∧ TxEffect env block state pindex txi s s' ∧
      Settled env fQueue cs q q' := by
  simp only [connectTx, bind_eq_ok, exists_unit, onlyIf_eq_ok, Bool.not_eq_true', rejectIf_eq_ok,
    decide_eq_false_iff_not, not_lt]
  constructor
  · rintro ⟨hspend, cost, hcost, hle, ⟨fees, reward, dzeel⟩, htally, r, hr, minted, hminted,
      ⟨view, undo⟩, hup, h⟩
    cases h
    obtain ⟨cs, hcs, hset⟩ := checkInputs_eq_ok.mp hr
    exact ⟨cs, hcs,
      ⟨hspend, ⟨cost, hcost, hle, rfl⟩, htally, ⟨minted, hminted, rfl⟩, ⟨undo, hup, rfl⟩, rfl,
      rfl⟩, settled_iff.mpr ⟨r, hset, rfl⟩⟩
  · rintro ⟨cs, hcs, ⟨hspend, ⟨cost, hcost, hle, hc⟩, htally, ⟨minted, hminted, hm⟩,
      ⟨undo, hup, hu⟩, hrows, hdiv⟩, hset⟩
    obtain ⟨r, hr, rfl⟩ := settled_iff.mp hset
    refine ⟨hspend, cost, hcost, hle, _, htally, r, checkInputs_eq_ok.mpr ⟨cs, hcs, hr⟩,
      minted, hminted, _,
      hup, ?_⟩
    cases s'
    subst hc hm hu hrows hdiv
    rfl

/-! ## What the loop does

One round of the loop and the whole call, with and without a queue: the script checks they call for are
`Settled` (`connectTx_eq_ok`, `connectBlock_eq_ok`).
-/

/-- A run of the loop over the given transactions, with all the script checks it calls for. -/
inductive BlockRun (env : Env) (block : CBlock) (state : CValidationState) (pindex : BlockPlace) :
    List (CTransaction × Nat) → ConnectState → ConnectState → List CScriptCheck → Prop
  | nil (s : ConnectState) : BlockRun env block state pindex [] s s []
  | cons {txi : CTransaction × Nat} {txs : List (CTransaction × Nat)} {s u s' : ConnectState}
      {cs cs' : List CScriptCheck}
      (inputs : InputChecks env txi.1 state s.view (scriptChecksEnabled env pindex)
        (connectFlags env block pindex.pprev) cs)
      (effect : TxEffect env block state pindex txi s u)
      (rest : BlockRun env block state pindex txs u s' cs') :
      BlockRun env block state pindex (txi :: txs) s s' (cs ++ cs')

theorem connectTx_loop {txs : List (CTransaction × Nat)} {s s' : ConnectState} :
    txs.foldlM (connectTx env block state pindex fQueue) (s, q) = .ok (s', q') ↔
      ∃ cs, BlockRun env block state pindex txs s s' cs ∧ Settled env fQueue cs q q' := by
  induction txs generalizing s q with
  | nil =>
    constructor
    · intro h
      cases h
      exact ⟨[], .nil _, settled_nil.mpr rfl⟩
    · rintro ⟨cs, hrun, hset⟩
      cases hrun
      cases settled_nil.mp hset
      rfl
  | cons txi txs ih =>
    rw [foldlM_cons_eq_ok]
    constructor
    · rintro ⟨⟨u, q1⟩, hu, hrest⟩
      obtain ⟨cs, hin, heff, hset⟩ := connectTx_eq_ok.mp hu
      obtain ⟨cs', hrun, hset'⟩ := ih.mp hrest
      exact ⟨cs ++ cs', .cons hin heff hrun, settled_append.mpr ⟨q1, hset, hset'⟩⟩
    · rintro ⟨cs, hrun, hset⟩
      cases hrun with
      | cons hin heff hrun =>
        obtain ⟨q1, hset, hset'⟩ := settled_append.mp hset
        exact ⟨_, connectTx_eq_ok.mpr ⟨_, hin, heff, hset⟩, ih.mpr ⟨_, hrun, hset'⟩⟩

/-- Everything an accepted block other than genesis has passed, scripts aside: the state at the
end of the loop and the script checks called for. -/
structure PassesButScripts (env : Env) (block : CBlock) (state : CValidationState)
    (pindex : BlockPlace) (view : CCoinsView) (fJustCheck : Bool) (s : ConnectState)
    (cs : List CScriptCheck) : Prop where
  check : checkBlock env block state (!fJustCheck) (!fJustCheck) = .ok ()
  best : prevHash pindex.pprev = view.hashBlock
  stake : ∃ proof, checkStake env block state pindex.pprev = .ok proof
  bip30 : checkBIP30 env block state pindex view = .ok ()
  run : BlockRun env block state pindex block.vtx.zipIdx (startState view pindex.pprev) s cs
  reward : checkReward env block state pindex.nHeight s = .ok ()

/-- The result of connecting a block other than genesis. -/
def connectedOf (env : Env) (block : CBlock) (pindex : BlockPlace) (fJustCheck : Bool)
    (proof : Uint256 × UInt64 × Bool) (s : ConnectState) (queued : List CScriptCheck) :
    Connected where
  view := if fJustCheck then s.view else s.view.setBestBlock (pindex.phashBlock.getD 0)
  blockundo := s.blockundo
  rows := s.rows
  pindex := newIndex env block pindex proof.1 proof.2 s.nMoneySupply s.nDividendFund
  strDZeel := s.strDZeel
  vChecks := queued

variable {view : CCoinsView} {fJustCheck : Bool} {r : Connected}

/-- With a queue, nothing is asked of the checks queued; without one, every script check called for has
passed. -/
theorem connectBlock_eq_ok (hgen : env.blockHash block ≠ env.consensus.hashGenesisBlock) :
    connectBlock env n block state pindex view fJustCheck = .ok r ↔
      ∃ proof s cs q, checkStake env block state pindex.pprev = .ok proof ∧
        PassesButScripts env block state pindex view fJustCheck s cs ∧ Settled env (n ≠ 0) cs [] q ∧
        r = connectedOf env block pindex fJustCheck proof s q := by
  simp only [connectBlock, hgen, if_false, bind_eq_ok, exists_unit, failIf_eq_ok,
    decide_eq_false_iff_not, not_not, Prod.exists, connectTx_loop]
  constructor
  · rintro ⟨hcheck, hbest, h, m, f, hstake, hbip, s, q, ⟨cs, hrun, hset⟩, hreward, hr⟩
    cases hr
    exact ⟨h, m, f, s, cs, q, hstake, ⟨hcheck, hbest, ⟨_, hstake⟩, hbip, hrun, hreward⟩, hset, rfl⟩
  · rintro ⟨h, m, f, s, cs, q, hstake, hpass, hset, rfl⟩
    exact ⟨hpass.check, hpass.best, h, m, f, hstake, hpass.bip30, s, q, ⟨cs, hpass.run, hset⟩,
      hpass.reward, rfl⟩

/-- Whatever the number of threads, an accepted block has passed all the rest. -/
theorem connectBlock_spec (hgen : env.blockHash block ≠ env.consensus.hashGenesisBlock)
    (h : connectBlock env n block state pindex view fJustCheck = .ok r) :
    ∃ proof s cs q, PassesButScripts env block state pindex view fJustCheck s cs ∧
      r = connectedOf env block pindex fJustCheck proof s q := by
  obtain ⟨proof, s, cs, q, -, hpass, -, hr⟩ := (connectBlock_eq_ok hgen).mp h
  exact ⟨proof, s, cs, q, hpass, hr⟩

end

end Chratos
