import Chratos.Lib.Worklist
import Chratos.Wallet.Spends

/-!
# Chratos — the wallet's transactions (`wallet/wallet.cpp`)

The wallet keeps the transactions that pay to it or spend from it, each with the block it is in, and
the spends among them. The node tells it of every transaction that enters the mempool, and of every
transaction of a block that is connected or disconnected (`syncTransaction`).

A transaction has the hash 0 for its block while it is in none, and the hash 1 when it was
abandoned. With the index -1 the block is not its own but one that it conflicts with, and its depth
is negative.

Times, the order of transactions, caches and notifications are left out, and writing the wallet file
succeeds. What belongs to the wallet's keys is given by `isMine`.
-/

namespace Chratos.Wallet

open Outcome

/-- What ends the process, or the call. `unfinished` is no outcome of the source: see
`exists_markConflicted` and `abandonTransaction_ne_unfinished`. -/
inductive WalletHalt where
  | assertion
  | valueOutOfRange
  | unfinished
  deriving DecidableEq, Repr

abbrev WalletResult (α : Type) := Except WalletHalt α

/-- What is given from outside: the hashes, and which outputs are the wallet's. -/
structure WalletEnv where
  txHash : CTransaction → Uint256
  blockHash : CBlock → Uint256
  isMine : CTxOut → Bool

/-! ## Confirmations -/

def abandonHash : Uint256 := 1

/-- The active chain by the hashes of its blocks, the first one being the genesis block. -/
structure CChain where
  vChain : List Uint256
  named : ∀ hash ∈ vChain, hash ≠ 0 ∧ hash ≠ abandonHash

/-- `Height() - nHeight + 1` for a block of the chain, 0 for others. -/
def CChain.confirmations (chain : CChain) (hash : Uint256) : Int :=
  match chain.vChain.idxOf? hash with
  | some nHeight => (chain.vChain.length : Int) - 1 - nHeight + 1
  | none => 0

structure CWalletTx where
  tx : CTransaction
  hashBlock : Uint256 := 0
  nIndex : Int := -1

namespace CWalletTx

def hashUnset (wtx : CWalletTx) : Bool := wtx.hashBlock = 0 ∨ wtx.hashBlock = abandonHash

def isAbandoned (wtx : CWalletTx) : Bool := wtx.hashBlock = abandonHash

def getDepthInMainChain (chain : CChain) (wtx : CWalletTx) : Int :=
  if wtx.hashUnset then 0
  else (if wtx.nIndex = -1 then -1 else 1) * chain.confirmations wtx.hashBlock

/-- The block the transaction is in, and its place there. -/
def setMerkleBranch (env : WalletEnv) (block : CBlock) (wtx : CWalletTx) : CWalletTx :=
  { wtx with
    hashBlock := env.blockHash block
    nIndex := match block.vtx.findIdx? fun tx => env.txHash tx = env.txHash wtx.tx with
      | some nIndex => nIndex
      | none => -1 }

end CWalletTx

/-! ## The wallet -/

/-- The transactions by their hashes, and the spends; who spends is in the wallet. -/
structure CWallet where
  mapWallet : Uint256 → Option CWalletTx
  mapTxSpends : TxSpends
  known : ∀ e ∈ mapTxSpends.entries, (mapWallet e.2).isSome = true

namespace CWallet

def empty : CWallet := ⟨fun _ => none, TxSpends.empty, List.forall_mem_nil _⟩

/-- `mapWallet[hash] = wtx`. -/
def set (w : CWallet) (hash : Uint256) (wtx : CWalletTx) : CWallet where
  mapWallet := Function.update w.mapWallet hash (some wtx)
  mapTxSpends := w.mapTxSpends
  known e he := by
    by_cases heq : e.2 = hash
    · rw [heq, Function.update_self]
      rfl
    · rw [Function.update_of_ne heq]
      exact w.known e he

section

variable (w : CWallet) (chain : CChain) (outpoint : COutPoint)

def isSpent : Bool :=
  (w.mapTxSpends.equalRange outpoint).any fun wtxid =>
    match w.mapWallet wtxid with
    | none => false
    | some wtx =>
      let depth := wtx.getDepthInMainChain chain
      0 < depth ∨ depth = 0 ∧ !wtx.isAbandoned

/-- `IsSpentAt`: spent at a height of the past. The difference of heights is taken without a sign
and read with one. -/
def isSpentAt (height : Nat) : Bool :=
  (w.mapTxSpends.equalRange outpoint).any fun wtxid =>
    match w.mapWallet wtxid with
    | none => false
    | some wtx =>
      let spendDepth := ((chain.vChain.length : Int) - 1 - height).bmod (2 ^ 32)
      spendDepth ≤ wtx.getDepthInMainChain chain

/-- The spends of a transaction of the wallet, one after another. -/
def recordSpends (wtxid : Uint256) (hknown : (w.mapWallet wtxid).isSome = true)
    (vin : List CTxIn) : CWallet where
  mapWallet := w.mapWallet
  mapTxSpends := w.mapTxSpends.insertAll vin wtxid
  known e he := by
    rcases TxSpends.mem_insertAll.mp he with he | ⟨he, -⟩
    · exact w.known e he
    · rw [he]
      exact hknown

def addToSpends (wtxid : Uint256) : WalletResult CWallet :=
  if hknown : (w.mapWallet wtxid).isSome = true then
    let thisTx := ((w.mapWallet wtxid).get hknown).tx
    -- coinbases don't spend anything
    if thisTx.isCoinBase then .ok w else .ok (w.recordSpends wtxid hknown thisTx.vin)
  else .error .assertion

end

/-! ## Conflicts -/

/-- One round of the loop of `MarkConflicted`. -/
def conflictVisit (chain : CChain) (hashBlock : Uint256) (conflictconfirms : Int) (w : CWallet)
    (now : Uint256) : WalletResult (CWallet × List Uint256) :=
  match w.mapWallet now with
  | none => .error .assertion
  | some wtx =>
    if conflictconfirms < wtx.getDepthInMainChain chain then
      .ok (w.set now { wtx with nIndex := -1, hashBlock := hashBlock },
        w.mapTxSpends.spendersFrom now now)
    else .ok (w, [])

/-- The number of rounds that is always enough. -/
def rounds (w : CWallet) : Nat := w.mapTxSpends.entries.length + 1

def markConflicted (w : CWallet) (chain : CChain) (hashBlock hashTx : Uint256) : WalletResult CWallet :=
  let conflictconfirms := -chain.confirmations hashBlock
  if 0 ≤ conflictconfirms then .ok w
  else Worklist.loop (· ≤ ·) .unfinished (conflictVisit chain hashBlock conflictconfirms) w.rounds w
    [hashTx] []

/-! ## Abandoning -/

/-- One round of the loop of `AbandonTransaction`. The outputs that are looked at are those of
`now`, but from the first one of `hashTx` on. -/
def abandonVisit (chain : CChain) (inMempool : Uint256 → Bool) (hashTx : Uint256) (w : CWallet)
    (now : Uint256) : WalletResult (CWallet × List Uint256) :=
  match w.mapWallet now with
  | none => .error .assertion
  | some wtx =>
    let currentconfirm := wtx.getDepthInMainChain chain
    if 0 < currentconfirm then .error .assertion
    else if currentconfirm = 0 ∧ !wtx.isAbandoned then
      if inMempool now then .error .assertion
      else
        .ok (w.set now { wtx with nIndex := -1, hashBlock := abandonHash },
          w.mapTxSpends.spendersFrom hashTx now)
    else .ok (w, [])

def abandonTransaction (w : CWallet) (chain : CChain) (inMempool : Uint256 → Bool) (hashTx : Uint256) :
    WalletResult (Bool × CWallet) :=
  match w.mapWallet hashTx with
  | none => .error .assertion
  | some origtx =>
    if 0 < origtx.getDepthInMainChain chain ∨ inMempool hashTx then .ok (false, w)
    else do
      let w ← Worklist.loop (· ≤ ·) .unfinished
        (abandonVisit chain inMempool hashTx) w.rounds w [hashTx] []
      pure (true, w)

/-! ## Adding transactions -/

section

variable (env : WalletEnv) (w : CWallet)

/-- `AddToWallet` of a transaction the node tells of: it is inserted with its spends, or what is
known of it is brought up to date. -/
def addToWallet (wtxIn : CWalletTx) : WalletResult CWallet :=
  let hash := env.txHash wtxIn.tx
  match w.mapWallet hash with
  | none => (w.set hash wtxIn).addToSpends hash
  | some wtx =>
    let wtx := if !wtxIn.hashUnset ∧ wtxIn.hashBlock ≠ wtx.hashBlock then
      { wtx with hashBlock := wtxIn.hashBlock } else wtx
    let wtx :=
      if wtxIn.hashBlock = 0 ∧ wtx.isAbandoned then { wtx with hashBlock := wtxIn.hashBlock } else wtx
    let wtx := if wtxIn.nIndex ≠ -1 ∧ wtxIn.nIndex ≠ wtx.nIndex then
      { wtx with nIndex := wtxIn.nIndex } else wtx
    .ok (w.set hash wtx)

def isMineTx (tx : CTransaction) : Bool := tx.vout.any env.isMine

/-- What an input takes from the wallet. -/
def getDebitIn (txin : CTxIn) : Int :=
  match w.mapWallet txin.prevout.hash with
  | none => 0
  | some prev =>
    match prev.tx.vout[txin.prevout.n.toNat]? with
    | none => 0
    | some txout => if env.isMine txout then txout.nValue else 0

def getDebit (tx : CTransaction) : WalletResult Int :=
  tx.vin.foldlM (fun nDebit txin =>
    let nDebit := int64 (nDebit + w.getDebitIn env txin)
    if moneyRange nDebit then .ok nDebit else .error .valueOutOfRange) 0

def isFromMe (tx : CTransaction) : WalletResult Bool := do
  let nDebit ← w.getDebit env tx
  pure (0 < nDebit)

variable (chain : CChain) (tx : CTransaction)

/-- The transactions that spend what a transaction of a block spends are conflicted. -/
def markSpenders : Option CBlock → WalletResult CWallet
  | none => .ok w
  | some block =>
    tx.vin.foldlM (fun w txin =>
      (w.mapTxSpends.equalRange txin.prevout).foldlM (fun w wtxid =>
        if wtxid ≠ env.txHash tx then w.markConflicted chain
          (env.blockHash block) wtxid else .ok w) w) w

/-- `fExisted || IsMine(tx) || IsFromMe(tx)`. -/
def involves : WalletResult Bool :=
  if (w.mapWallet (env.txHash tx)).isSome || isMineTx env tx then .ok true else w.isFromMe env tx

/-- The transaction as the wallet keeps it. -/
def newWalletTx : Option CBlock → CWalletTx
  | none => { tx := tx }
  | some block => CWalletTx.setMerkleBranch env block { tx := tx }

def addToWalletIfInvolvingMe (pblock : Option CBlock) (fUpdate : Bool) :
    WalletResult (Bool × CWallet) := do
  let w ← w.markSpenders env chain tx pblock
  if (w.mapWallet (env.txHash tx)).isSome && !fUpdate then pure (false, w)
  else do
    let involved ← w.involves env tx
    if involved then do
      let w ← w.addToWallet env (newWalletTx env tx pblock)
      pure (true, w)
    else pure (false, w)

/-- `!fConnect && tx.IsCoinStake() && IsFromMe(tx)`. -/
def disconnectsOwnStake (fConnect : Bool) : WalletResult Bool :=
  if !fConnect && tx.isCoinStake then w.isFromMe env tx else .ok false

def refundInputs : CWallet where
  mapWallet := w.mapWallet
  mapTxSpends := w.mapTxSpends.eraseAll tx.vin
  known e he := w.known e (TxSpends.mem_eraseAll.mp he).1

/-- When a coinstake of the wallet is disconnected it is abandoned, and its inputs are refunded: no
spend of them is kept. The first test only marks caches, but it can throw. -/
def syncTransaction (chain : CChain) (inMempool : Uint256 → Bool)
    (tx : CTransaction) (pblock : Option CBlock) (fConnect : Bool) : WalletResult CWallet := do
  let _ ← w.disconnectsOwnStake env tx fConnect
  let added ← w.addToWalletIfInvolvingMe env chain tx pblock true
  let refund ← added.2.disconnectsOwnStake env tx fConnect
  if refund then do
    let abandoned ← added.2.abandonTransaction chain inMempool (env.txHash tx)
    pure (abandoned.2.refundInputs tx)
  else pure added.2

end

end CWallet

end Chratos.Wallet
