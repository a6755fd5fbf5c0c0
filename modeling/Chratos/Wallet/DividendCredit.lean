import Chratos.Chain.BlockMap
import Chratos.Chain.Context

/-!
# Chratos — dividends of the wallet's coins (`wallet/wallet.cpp`)

The wallet adds the dividend of a coin to its value wherever it counts or selects coins. For that it
needs the height of the coin's block, and takes it from `mapBlockIndex` with `operator[]`, by the hash
that the wallet transaction has for its block. A transaction that is not in a block has the null hash
there, one that was abandoned the hash 1.

What the wallet knows about keys, spends and payouts is given; `GetAvailableAmount` is what coin
selection and the creation of transactions call for each coin they look at.
-/

namespace Chratos

open Effects

/-- A transaction of the wallet. `fFromMe` stands for what `IsTrusted` asks of a transaction without
confirmations: unconfirmed change may be spent, the transaction is in the mempool, and all its inputs
are the wallet's. -/
structure CWalletTx (ι : Type) where
  vout : List CTxOut
  hashBlock : ι
  nIndex : Int
  fGenerated : Bool
  fFinal : Bool
  fFromMe : Bool

/-- The wallet, and the payouts of `CDividend` as they stand; `none` is a division by zero. -/
structure CWallet (ι : Type) where
  mapWallet : StdMap Uint256 (CWalletTx ι)
  isMine : CTxOut → Bool
  isSpent : Uint256 → Nat → Bool
  isSpentAt : Uint256 → Nat → Nat → Bool
  getDividendPayout : Int → Nat → Option Int
  getDividendPayoutUntil : Int → Nat → Nat → Option Int
  hashNull : ι
  hashAbandon : ι

/-- The exceptions. -/
inductive WalletThrow where
  | valueOutOfRange
  | incorrectTxn
  | divisionByZero
  | outOfBounds
  deriving DecidableEq, Repr

variable {ι : Type} [LinearOrder ι]

/-- What the wallet's functions do to the map. -/
abbrev WalletM (ι α : Type) := Effect (BlockMap ι) WalletThrow α

/-- `mapBlockIndex[hash]`. -/
def subscriptBlock (hash : ι) : WalletM ι (Option ι) := do
  let s ← get
  let r := s.mapBlockIndex.subscript none hash
  set { s with mapBlockIndex := r.1 }
  pure r.2

/-! ## Confirmations -/

section

variable (w : CWallet ι)

section

variable (s : BlockMap ι) (wtx : CWalletTx ι)

/-- `CMerkleTx::GetDepthInMainChain`. -/
def CWallet.getDepthInMainChain : Int :=
  if wtx.hashBlock = w.hashNull ∨ wtx.hashBlock = w.hashAbandon then 0
  else
    match s.mapBlockIndex.find wtx.hashBlock with
    | some (some pindex) =>
      if s.tree.contains pindex then
        (if wtx.nIndex = -1 then -1 else 1) *
          ((s.tree.vChain.length : Int) - 1 - s.tree.nHeight pindex + 1)
      else 0
    | _ => 0

def CWallet.isImmature : Bool :=
  wtx.fGenerated && 0 < max 0 ((COINBASE_MATURITY : Int) + 1 - w.getDepthInMainChain s wtx)

/-- `CWalletTx::IsTrusted`. -/
def CWallet.isTrusted : Bool :=
  let nDepth := w.getDepthInMainChain s wtx
  if !wtx.fFinal then false
  else if 1 ≤ nDepth then true
  else if nDepth < 0 then false
  else wtx.fFromMe

end

/-! ## Credits -/

def CWallet.getCredit (txout : CTxOut) : WalletM ι Int :=
  if !moneyRange txout.nValue then throw .valueOutOfRange
  else pure (if w.isMine txout then txout.nValue else 0)

section

variable (payout : Int → Nat → Option Int) (txout : CTxOut) (txn : CWalletTx ι)

/-- The dividend of one output, by a payout that depends on its amount and the height of its block. -/
def CWallet.dividendCredit : WalletM ι Int := do
  let amount ← w.getCredit txout
  let block ← subscriptBlock txn.hashBlock
  match block with
  | none => pure 0
  | some pindex =>
    if !txn.vout.contains txout then throw .incorrectTxn
    else do
      let s ← get
      match payout amount (s.tree.nHeight pindex) with
      | none => throw .divisionByZero
      | some credit => pure credit

def CWallet.getDividendCredit : WalletM ι Int :=
  w.dividendCredit w.getDividendPayout txout txn

def CWallet.getDividendCreditAt (height : Nat) : WalletM ι Int :=
  w.dividendCredit (fun amount blockHeight => w.getDividendPayoutUntil amount blockHeight height) txout
    txn

end

def CWallet.getAvailableAmount (wtx : CWalletTx ι) (outputIndex : Nat) : WalletM ι Int :=
  match wtx.vout[outputIndex]? with
  | none => throw .outOfBounds
  | some txout => do
    let credit ← w.getDividendCredit txout wtx
    pure (int64 (txout.nValue + credit))

/-- The credits of the outputs that are not spent; generated coins have to be mature. -/
def CWallet.sumCredits (wtx : CWalletTx ι) (spent : Nat → Bool)
    (credit : CTxOut → WalletM ι Int) : WalletM ι Int := do
  let s ← get
  if w.isImmature s wtx then pure 0
  else wtx.vout.zipIdx.foldlM (fun nCredit out =>
    if spent out.2 then pure nCredit
    else do
      let more ← credit out.1
      if !moneyRange (int64 (nCredit + more)) then throw .valueOutOfRange
      else pure (int64 (nCredit + more))) 0

def CWallet.getAvailableDividendCredit (hash : Uint256) (wtx : CWalletTx ι) : WalletM ι Int :=
  w.sumCredits wtx (w.isSpent hash) fun txout => w.getDividendCredit txout wtx

def CWallet.getAvailableCreditWithDividendAt (hash : Uint256) (wtx : CWalletTx ι)
    (height : Nat) : WalletM ι Int :=
  w.sumCredits wtx (fun i => w.isSpentAt hash i height) fun txout =>
    w.getDividendCreditAt txout wtx height

/-! ## Balances -/

def CWallet.getDividendBalance : WalletM ι Int :=
  w.mapWallet.foldlM (fun nTotal it => do
    let s ← get
    if w.isTrusted s it.2 then do
      let credit ← w.getAvailableDividendCredit it.1 it.2
      pure (int64 (nTotal + credit))
    else pure nTotal) 0

def CWallet.getDividendBalanceAt (height : Nat) : WalletM ι Int :=
  w.mapWallet.foldlM (fun nTotal it => do
    let s ← get
    if w.isTrusted s it.2 then do
      let block ← subscriptBlock it.2.hashBlock
      match block with
      | none => pure nTotal
      | some pindex =>
        if s.tree.nHeight pindex ≤ height then do
          let credit ← w.getAvailableCreditWithDividendAt it.1 it.2 height
          pure (int64 (nTotal + credit))
        else pure nTotal
    else pure nTotal) 0

def CWallet.getConsumedDividend (vin : List COutPoint) : WalletM ι Int :=
  vin.foldlM (fun consumed prevout =>
    match w.mapWallet.find prevout.hash with
    | none => pure consumed
    | some coin =>
      match coin.vout[prevout.n.toNat]? with
      | none => throw .outOfBounds
      | some txout => do
        let credit ← w.getDividendCredit txout coin
        pure (int64 (consumed + credit))) 0

inductive WalletCall (ι : Type) where
  | getDividendBalance
  | getDividendBalanceAt (height : Nat)
  | getAvailableAmount (wtx : CWalletTx ι) (outputIndex : Nat)
  | getConsumedDividend (vin : List COutPoint)

def CWallet.run : WalletCall ι → WalletM ι Int
  | .getDividendBalance => w.getDividendBalance
  | .getDividendBalanceAt height => w.getDividendBalanceAt height
  | .getAvailableAmount wtx outputIndex => w.getAvailableAmount wtx outputIndex
  | .getConsumedDividend vin => w.getConsumedDividend vin

/-! ## What a call leaves behind

The map stays as it is if the block is known (`dividendCredit_keeps`).
-/

/-- The blocks of all transactions a call asks about are known. -/
def WalletCall.AsksKnown (s : BlockMap ι) : WalletCall ι → Prop
  | .getDividendBalance => ∀ it ∈ w.mapWallet, w.isTrusted s it.2 = true →
      s.mapBlockIndex.count it.2.hashBlock = true
  | .getDividendBalanceAt _ => ∀ it ∈ w.mapWallet, w.isTrusted s it.2 = true →
      s.mapBlockIndex.count it.2.hashBlock = true
  | .getAvailableAmount wtx _ => s.mapBlockIndex.count wtx.hashBlock = true
  | .getConsumedDividend vin => ∀ prevout ∈ vin, ∀ coin, w.mapWallet.find prevout.hash = some coin →
      s.mapBlockIndex.count coin.hashBlock = true

end

variable {w : CWallet ι} {s : BlockMap ι}

/-- A subscript with a key that is there changes nothing. -/
theorem subscriptBlock_keeps {hash : ι} (h : s.mapBlockIndex.count hash = true) :
    Keeps (· = s) (subscriptBlock hash) := by
  intro s' hs
  subst hs
  show { s' with mapBlockIndex := (s'.mapBlockIndex.subscript none hash).1 } = s'
  rw [StdMap.subscript_of_count h]

variable {txout : CTxOut} {wtx : CWalletTx ι}

omit [LinearOrder ι] in
theorem getCredit_keeps : Keeps (· = s) (w.getCredit txout) :=
  keeps_ite (fun _ => keeps_throw _) fun _ => keeps_pure _

theorem dividendCredit_keeps {payout : Int → Nat → Option Int} {txn : CWalletTx ι}
    (h : s.mapBlockIndex.count txn.hashBlock = true) :
    Keeps (· = s) (w.dividendCredit payout txout txn) := by
  refine getCredit_keeps.bind fun amount => (subscriptBlock_keeps h).bind fun block => ?_
  cases block with
  | none => exact keeps_pure 0
  | some pindex =>
    refine keeps_ite (fun _ => keeps_throw _) fun _ => keeps_get_bind fun s' _ => ?_
    cases payout amount (s'.tree.nHeight pindex) with
    | none => exact keeps_throw _
    | some credit => exact keeps_pure _

theorem getAvailableAmount_keeps {outputIndex : Nat}
    (h : s.mapBlockIndex.count wtx.hashBlock = true) :
    Keeps (· = s) (w.getAvailableAmount wtx outputIndex) := by
  unfold CWallet.getAvailableAmount
  cases wtx.vout[outputIndex]? with
  | none => exact keeps_throw _
  | some txout => exact (dividendCredit_keeps h).bind fun _ => keeps_pure _

theorem sumCredits_keeps {spent : Nat → Bool} {credit : CTxOut → WalletM ι Int}
    (h : ∀ txout, Keeps (· = s) (credit txout)) : Keeps (· = s) (w.sumCredits wtx spent credit) := by
  refine keeps_get_bind fun s' _ => keeps_ite (fun _ => keeps_pure 0) fun _ => ?_
  refine .foldlM (fun out _ nCredit => ?_) 0
  refine keeps_ite (fun _ => keeps_pure nCredit) fun _ => (h out.1).bind fun more => ?_
  exact keeps_ite (fun _ => keeps_throw _) fun _ => keeps_pure _

/-- **A call of the wallet** that asks about known blocks leaves the map as it is. -/
theorem CWallet.run_keeps {c : WalletCall ι} (h : c.AsksKnown w s) : Keeps (· = s) (w.run c) := by
  cases c with
  | getDividendBalance =>
    refine .foldlM (fun it hit nTotal => keeps_get_bind fun s' hs' => ?_) 0
    refine keeps_ite (fun htrusted => ?_) fun _ => keeps_pure nTotal
    have hknown : s.mapBlockIndex.count it.2.hashBlock = true := h it hit (hs' ▸ htrusted)
    exact (sumCredits_keeps fun _ => dividendCredit_keeps hknown).bind fun _ => keeps_pure _
  | getDividendBalanceAt height =>
    refine .foldlM (fun it hit nTotal => keeps_get_bind fun s' hs' => ?_) 0
    refine keeps_ite (fun htrusted => ?_) fun _ => keeps_pure nTotal
    have hknown : s.mapBlockIndex.count it.2.hashBlock = true := h it hit (hs' ▸ htrusted)
    refine (subscriptBlock_keeps hknown).bind fun block => ?_
    cases block with
    | none => exact keeps_pure nTotal
    | some pindex =>
      refine keeps_ite (fun _ => ?_) fun _ => keeps_pure nTotal
      exact (sumCredits_keeps fun _ => dividendCredit_keeps hknown).bind fun _ => keeps_pure _
  | getAvailableAmount wtx outputIndex => exact getAvailableAmount_keeps h
  | getConsumedDividend vin =>
    refine .foldlM (fun prevout hprevout consumed => ?_) 0
    cases hfind : w.mapWallet.find prevout.hash with
    | none => exact keeps_pure consumed
    | some coin =>
      have hknown := h prevout hprevout coin hfind
      dsimp only
      cases coin.vout[prevout.n.toNat]? with
      | none => exact keeps_throw _
      | some txout => exact (dividendCredit_keeps hknown).bind fun _ => keeps_pure _

end Chratos
