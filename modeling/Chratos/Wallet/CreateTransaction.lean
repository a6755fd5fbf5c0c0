import Chratos.Wallet.CoinSelection

/-!
# Chratos — making a transaction (`wallet/wallet.cpp`, `CreateTransaction`)

The fee of a transaction goes by its size, and its size by the coins that have to pay it. So the
loop starts without a fee: it writes the outputs, selects coins, gives change, signs and measures;
if the fee is too low for the size, it starts over with the fee that was needed.

The recipients may be asked to pay the fee. It is then taken from their amounts in equal parts, the
remainder from the first. Change that would be dust goes to the fee, or, if recipients pay, is
raised at the cost of the first of them.

`SpendEnv` holds what the function takes from the wallet and the node: keys and signatures, the
coins' times and depths, the fee policy, the choices left to chance and the order of a set of
pointers. The test whether the transaction may go without a fee works on floating-point priorities
and is left open (`isFree`).
-/

namespace Chratos

open Outcome

def MAX_STANDARD_TX_WEIGHT : Nat := 400000

structure CRecipient where
  scriptPubKey : CScript
  nAmount : Int
  fSubtractFeeFromAmount : Bool

structure SpendEnv where
  nVersion : Int
  nLockTime : UInt32
  mapWallet : Uint256 → Option (List CTxOut)
  /-- The time of a wallet transaction. -/
  nTime : Uint256 → UInt32
  /-- `GetDepthInMainChain` of a wallet transaction. -/
  depth : Uint256 → Int
  bSpendZeroConfChange : Bool
  minRelayTxFee : CFeeRate
  getMinimumFee : Nat → Int
  isFree : CTransaction → List COutPoint → Nat → Bool
  /-- The script and witness for an input, or nothing; dummies if the transaction is not to be
  signed. -/
  produceSignature : CTransaction → Nat → COutPoint → Option (CScript × List (List UInt8))
  sign : Bool
  /-- The script of a key from the pool, for each round of the loop. -/
  reserveKey : Nat → Option CScript
  getRandInt : Nat → Nat → Nat
  getRandInt_lt : ∀ round n, 0 < n → getRandInt round n < n
  chance : Nat → Nat → Chance
  setOrder : List COutPoint → List COutPoint
  setOrder_perm : ∀ coins, (setOrder coins).Perm coins

inductive CreateHalt where
  | fail (strFailReason : String)
  | assertion
  deriving DecidableEq, Repr

abbrev CreateM := Except CreateHalt

/-! ## The outputs -/

/-- The total of the amounts, and the number of those who pay the fee. -/
def sumRecipients (vecSend : List CRecipient) : CreateM (Int × Nat) :=
  vecSend.foldlM (fun s recipient =>
    if s.1 < 0 ∨ recipient.nAmount < 0 then .error (.fail "Transaction amounts must be positive")
    else .ok (int64 (s.1 + recipient.nAmount),
      if recipient.fSubtractFeeFromAmount then s.2 + 1 else s.2)) (0, 0)

section

variable (nFeeRet : Int) (nSubtractFeeFromAmount : Nat) (fFirst : Bool)

/-- What a recipient who pays the fee gets; the first pays the remainder. -/
def payFee (nAmount : Int) : Int :=
  let nValue := int64 (nAmount - nFeeRet.tdiv nSubtractFeeFromAmount)
  if fFirst then int64 (nValue - nFeeRet.tmod nSubtractFeeFromAmount) else nValue

/-- The output for a recipient, and whether the first who pays is still to come. -/
def payee (recipient : CRecipient) : CTxOut × Bool :=
  if recipient.fSubtractFeeFromAmount then
    (⟨payFee nFeeRet nSubtractFeeFromAmount fFirst recipient.nAmount, recipient.scriptPubKey⟩, false)
  else (⟨recipient.nAmount, recipient.scriptPubKey⟩, fFirst)

def dustReason (recipient : CRecipient) (txout : CTxOut) : String :=
  if recipient.fSubtractFeeFromAmount ∧ nFeeRet > 0 then
    if txout.nValue < 0 then "The transaction amount is too small to pay the fee"
    else "The transaction amount is too small to send after the fee has been deducted"
  else "Transaction amount too small"

end

/-- The outputs for the recipients. -/
def payees (minRelayTxFee : CFeeRate) (nFeeRet : Int) (nSubtractFeeFromAmount : Nat) :
    Bool → List CRecipient → CreateM (List CTxOut)
  | _, [] => .ok []
  | fFirst, recipient :: vecSend =>
    let txout := (payee nFeeRet nSubtractFeeFromAmount fFirst recipient).1
    if txout.isDust minRelayTxFee then .error (.fail (dustReason nFeeRet recipient txout))
    else
      (txout :: ·) <$> payees minRelayTxFee nFeeRet nSubtractFeeFromAmount
        (payee nFeeRet nSubtractFeeFromAmount fFirst recipient).2 vecSend

/-- The dust the change lacks is taken from the first recipient who pays. -/
def deductDust (minRelayTxFee : CFeeRate) (nDust : Int) :
    List CRecipient → List CTxOut → CreateM (List CTxOut)
  | recipient :: vecSend, txout :: vout =>
    if recipient.fSubtractFeeFromAmount then
      let txout := { txout with nValue := int64 (txout.nValue - nDust) }
      if txout.isDust minRelayTxFee then
        .error (.fail "The transaction amount is too small to send after the fee has been deducted")
      else .ok (txout :: vout)
    else (txout :: ·) <$> deductDust minRelayTxFee nDust vecSend vout
  | _, vout => .ok vout

/-! ## The change -/

/-- What is settled when the change is: the outputs, the place of the change and the fee. -/
structure Changed where
  vout : List CTxOut
  nChangePosInOut : Int
  nFeeRet : Int

variable (env : SpendEnv)

/-- The script the change goes to. -/
def SpendEnv.scriptChange (round : Nat) (coinControl : Option CCoinControl) : CreateM CScript :=
  match coinControl.bind CCoinControl.scriptChange with
  | some script => .ok script
  | none =>
    match env.reserveKey round with
    | some script => .ok script
    | none => .error .assertion

/-- Change that would be dust is raised, if the recipients pay. -/
def SpendEnv.raiseChange (vecSend : List CRecipient) (nSubtractFeeFromAmount : Nat)
    (vout : List CTxOut) (newTxOut : CTxOut) : CreateM (List CTxOut × CTxOut) :=
  if nSubtractFeeFromAmount > 0 ∧ newTxOut.isDust env.minRelayTxFee then
    let nDust := int64 (newTxOut.getDustThreshold env.minRelayTxFee - newTxOut.nValue)
    (·, { newTxOut with nValue := int64 (newTxOut.nValue + nDust) }) <$>
      deductDust env.minRelayTxFee nDust vecSend vout
  else .ok (vout, newTxOut)

/-- The change goes to its place, to a random one if none was asked for; dust goes to the fee. -/
def SpendEnv.placeChange (round : Nat) (nChangePosRequest nFeeRet nChange : Int)
    (vout : List CTxOut) (newTxOut : CTxOut) : CreateM Changed :=
  if newTxOut.isDust env.minRelayTxFee then .ok ⟨vout, -1, int64 (nFeeRet + nChange)⟩
  else if nChangePosRequest = -1 then
    let position := env.getRandInt round (vout.length + 1)
    .ok ⟨vout.take position ++ newTxOut :: vout.drop position, position, nFeeRet⟩
  else if vout.length < (nChangePosRequest % 2 ^ 32).toNat then .error
    (.fail "Change index out of range")
  else
    .ok ⟨vout.take nChangePosRequest.toNat ++ newTxOut :: vout.drop nChangePosRequest.toNat,
      nChangePosRequest, nFeeRet⟩

def SpendEnv.addChange (round : Nat) (vecSend : List CRecipient)
    (nSubtractFeeFromAmount : Nat) (nChangePosRequest : Int) (coinControl : Option CCoinControl)
    (nFeeRet nChange : Int) (vout : List CTxOut) : CreateM Changed :=
  if nChange > 0 then do
    let scriptChange ← env.scriptChange round coinControl
    let raised ← env.raiseChange vecSend nSubtractFeeFromAmount vout ⟨nChange, scriptChange⟩
    env.placeChange round nChangePosRequest nFeeRet nChange raised.1 raised.2
  else .ok ⟨vout, nChangePosRequest, nFeeRet⟩

/-! ## The inputs -/

/-- An input of the new transaction; the sequence number leaves the lock time in force. -/
def unsignedInput (coin : COutPoint) : CTxIn :=
    { prevout := coin, scriptSig := [], nSequence := 0xfffffffe }

/-- The signatures, put in. A witness is kept only if one of the inputs has one. -/
def withSignatures (tx : CTransaction) (sigdata : List (CScript × List (List UInt8))) :
    CTransaction where
  nVersion := tx.nVersion
  nTime := tx.nTime
  vin := List.zipWith (fun i sig => { i with scriptSig := sig.1 }) tx.vin sigdata
  vout := tx.vout
  wit := if sigdata.any (!·.2.isEmpty) then List.zipWith (fun _ sig => sig.2) tx.vin sigdata else []
  nLockTime := tx.nLockTime
  strDZeel := tx.strDZeel
  wit_le := by split <;> simp

/-- Each input is signed for the transaction without signatures. -/
def SpendEnv.signInputs (tx : CTransaction) (coins : List COutPoint) : CreateM CTransaction :=
  match coins.zipIdx.mapM fun (coin, nIn) => env.produceSignature tx nIn coin with
  | none => .error (.fail "Signing transaction failed")
  | some sigdata => .ok (withSignatures tx sigdata)

/-! ## The fee -/

/-- The fee for a size: that of the policy, at least 10000, and what coin control makes of it. -/
def SpendEnv.feeNeeded (coinControl : Option CCoinControl) (nBytes : Nat) : Int :=
  let nFeeNeeded := env.getMinimumFee nBytes
  let nFeeNeeded := if nFeeNeeded > 10000 then nFeeNeeded else 10000
  match coinControl with
  | none => nFeeNeeded
  | some c =>
    if c.fOverrideFeeRate then c.nFeeRate.getFee nBytes
    else if nFeeNeeded > 0 ∧ c.nMinimumTotalFee > nFeeNeeded then c.nMinimumTotalFee
    else nFeeNeeded

/-! ## The loop -/

/-- What one round leaves to the next. -/
structure FeeLoop where
  nTime : UInt32
  nFeeRet : Int
  deriving DecidableEq

structure CreatedTx where
  tx : CTransaction
  nFeeRet : Int
  nChangePosInOut : Int

/-- The arguments of the call. -/
structure CreateRequest where
  vecSend : List CRecipient
  nValue : Int
  nSubtractFeeFromAmount : Nat
  nChangePosRequest : Int
  coinControl : Option CCoinControl
  vAvailableCoins : List COutput

/-- What a round has to select. -/
def CreateRequest.valueToSelect (req : CreateRequest) (nFeeRet : Int) : Int :=
  if req.nSubtractFeeFromAmount = 0 then int64 (req.nValue + nFeeRet) else req.nValue

/-- The transaction of a round, before it is signed. The time is not before that of a coin. -/
def SpendEnv.unsignedTx (nTime : UInt32) (coins : List COutPoint) (vout : List CTxOut) :
    CTransaction where
  nVersion := env.nVersion
  nTime := coins.foldl (fun t coin => max t (env.nTime coin.hash)) nTime
  vin := coins.map unsignedInput
  vout := vout
  nLockTime := env.nLockTime

/-- The transaction that is returned; signatures that were only there for its size are taken out. -/
def SpendEnv.returned (txNew : CTransaction) : CTransaction :=
  if env.sign then txNew else withSignatures txNew (List.replicate txNew.vin.length ([], []))

/-- Done, or another round with more fee. -/
def SpendEnv.settle (coinControl : Option CCoinControl) (coins : List COutPoint)
    (txNew : CTransaction) (changed : Changed) : CreateM (CreatedTx ⊕ FeeLoop) :=
  let nBytes := getVirtualTransactionSize txNew
  let wtxNew := env.returned txNew
  if MAX_STANDARD_TX_WEIGHT ≤ txWeight wtxNew then .error (.fail "Transaction too large")
  else if env.isFree wtxNew coins nBytes then .ok
    (.inl ⟨wtxNew, changed.nFeeRet, changed.nChangePosInOut⟩)
  else if env.feeNeeded coinControl nBytes < env.minRelayTxFee.getFee nBytes then
    .error (.fail "Transaction too large for fee policy")
  else if env.feeNeeded coinControl nBytes ≤ changed.nFeeRet then
    .ok (.inl ⟨wtxNew, changed.nFeeRet, changed.nChangePosInOut⟩)
  else .ok (.inr ⟨wtxNew.nTime, env.feeNeeded coinControl nBytes⟩)

/-- One round: outputs, coins, change, signatures, and the fee for the size. -/
def SpendEnv.feeRound (req : CreateRequest) (round : Nat) (s : FeeLoop) :
    CreateM (CreatedTx ⊕ FeeLoop) := do
  let nValueToSelect := req.valueToSelect s.nFeeRet
  let vout ← payees env.minRelayTxFee s.nFeeRet req.nSubtractFeeFromAmount true req.vecSend
  match selectCoins env.mapWallet (env.chance round) env.bSpendZeroConfChange req.vAvailableCoins
      nValueToSelect req.coinControl with
  | none => .error (.fail "Insufficient funds")
  | some selected =>
    let setCoins := env.setOrder selected.1
    failIf (setCoins.any fun coin => decide (env.depth coin.hash < 0)) CreateHalt.assertion
    let changed ← env.addChange round req.vecSend req.nSubtractFeeFromAmount req.nChangePosRequest
      req.coinControl s.nFeeRet (int64 (selected.2 - nValueToSelect)) vout
    let txNew ← env.signInputs (env.unsignedTx s.nTime setCoins changed.vout) setCoins
    env.settle req.coinControl setCoins txNew changed

/-- The rounds from one on; nothing if there are more than `fuel`. -/
def SpendEnv.feeLoop (env : SpendEnv) (req : CreateRequest) :
    Nat → Nat → FeeLoop → Option (CreateM CreatedTx)
  | 0, _, _ => none
  | fuel + 1, round, s =>
    match env.feeRound req round s with
    | .error halt => some (.error halt)
    | .ok (.inl created) => some (.ok created)
    | .ok (.inr s) => env.feeLoop req fuel (round + 1) s

/-- `CreateTransaction`: at most `fuel` rounds. `nTime` is the time the transaction starts with. -/
def SpendEnv.createTransaction (fuel : Nat) (vecSend : List CRecipient)
    (nChangePosRequest : Int) (coinControl : Option CCoinControl) (vAvailableCoins : List COutput)
    (nTime : UInt32) : Option (CreateM CreatedTx) :=
  match sumRecipients vecSend with
  | .error halt => some (.error halt)
  | .ok (nValue, nSubtractFeeFromAmount) =>
    if vecSend.isEmpty ∨ nValue < 0 then some (.error (.fail "Transaction amounts must be positive"))
    else
      env.feeLoop
        { vecSend, nValue, nSubtractFeeFromAmount, nChangePosRequest, coinControl, vAvailableCoins }
        fuel 0 ⟨nTime, 0⟩

end Chratos
