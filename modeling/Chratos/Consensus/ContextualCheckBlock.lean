import Chratos.Consensus.CheckBlock
import Chratos.Univalue.Read

/-!
# Chratos — checks that need the parent (`main.cpp`: `ContextualCheckBlock`)

Heights at which each kind of block may occur, the coinstake timestamp, final transactions,
the height in the coinbase, the witness commitment, the weight limit, and last the rule that
the coinbase of a proof-of-stake block pays nothing. That rule has an exception: an output
may be positive when the coinbase's free text reads as a JSON array
(`contextualCheckBlock_coinbase`), a remainder of payment requests that nothing checks any
more.
-/

namespace Chratos

open Outcome

/-! ## The height in the coinbase -/

def leDigits : Nat → Nat → List UInt8
  | 0, _ => []
  | fuel + 1, n => if n = 0 then [] else UInt8.ofNat n :: leDigits fuel (n / 256)

/-- `CScriptNum::serialize` of a positive number: a zero byte keeps the sign bit clear. -/
def scriptNum (n : Nat) : List UInt8 :=
  let result := leDigits 8 n
  if result.getLast?.any (128 ≤ ·) then result ++ [0] else result

/-- `CScript() << nHeight`. -/
def pushHeight (nHeight : Nat) : CScript :=
  if nHeight = 0 then [0]
  else if nHeight ≤ 16 then [UInt8.ofNat (nHeight + 0x50)]
  else UInt8.ofNat (scriptNum nHeight).length :: scriptNum nHeight

/-! ## The witness commitment -/

def isWitnessCommitment (o : CTxOut) : Bool :=
  38 ≤ o.scriptPubKey.length ∧ o.scriptPubKey.take 6 = [OP_RETURN, 0x24, 0xaa, 0x21, 0xa9, 0xed]

/-- The output `GetWitnessCommitmentIndex` finds: the last one of the shape. -/
def witnessCommitment (coinbase : CTransaction) : Option CTxOut :=
  (coinbase.vout.filter isWitnessCommitment).getLast?

section

variable (env : Env) (block : CBlock) (coinbase : CTransaction)

/-- The commitment matches the witnesses; the nonce is the coinbase's only witness. -/
def checkWitnessCommitment (commitment : CTxOut) (state : CValidationState) : Verdict Unit :=
  match coinbase.wit with
  | [[nonce]] => do
    rejectIf (nonce.length ≠ 32) (state.doS 100 REJECT_INVALID "bad-witness-nonce-size" true)
    let hashWitness := env.hash256 (serUint256 (blockWitnessMerkleRoot env.hash256 block) ++ nonce)
    rejectIf (serUint256 hashWitness ≠ (commitment.scriptPubKey.drop 6).take 32)
      (state.doS 100 REJECT_INVALID "bad-witness-merkle-match" true)
  | _ => .error (.rejected (state.doS 100 REJECT_INVALID "bad-witness-nonce-size" true))

/-- The witness rules: a commitment is checked when witnesses are enabled and there is one;
otherwise no transaction may carry a witness. -/
def checkWitness (chain : PrevChain) (state : CValidationState) : Verdict Unit :=
  match (if env.versionBitsActive .DEPLOYMENT_SEGWIT chain then witnessCommitment coinbase
    else none) with
  | some commitment => checkWitnessCommitment env block coinbase commitment state
  | none => rejectIf (block.vtx.any (·.hasWitness))
      (state.doS 100 REJECT_INVALID "unexpected-witness" true)

/-! ## The check -/

/-- Heights, timestamp and lock times. The two height rejections pass their message where the
corruption flag stands, and a string literal there reads as `true`. -/
def checkPlacement (state : CValidationState) (chain : PrevChain)
    (nHeight : Nat) : Verdict Unit := do
  rejectIf (block.isProofOfWork && env.consensus.nLastPOWBlock < nHeight)
    (state.doS 10 REJECT_INVALID "check-pow-height" true)
  rejectIf (block.isProofOfStake && nHeight < env.consensus.nFirstPOSBlock)
    (state.doS 10 REJECT_INVALID "check-pos-height" true)
  rejectIf (block.isProofOfStake && !(block.vtx.drop 1).head?.any fun tx =>
      checkCoinStakeTimestamp nHeight block.nTime tx.nTime)
    (state.invalid REJECT_INVALID "check-coinstake-timestamp")
  let nLockTimeCutoff := if env.versionBitsActive .DEPLOYMENT_CSV chain then
    getMedianTimePast chain else block.nTime.toNat
  rejectIf (!block.vtx.all (isFinalTx · nHeight nLockTimeCutoff))
    (state.doS 10 REJECT_INVALID "bad-txns-nonfinal")

/-- A positive coinbase output in a proof-of-stake block, unless the text is a JSON array. -/
def paysWithoutArray (o : CTxOut) : Bool :=
  0 < o.nValue && !UniValue.readsArray coinbase.strDZeel

end

def contextualCheckBlock (env : Env) (block : CBlock) (state : CValidationState)
    (chain : PrevChain) : Verdict Unit := do
  let nHeight := match chain with
    | [] => 0
    | pindexPrev :: _ => pindexPrev.nHeight + 1
  checkPlacement env block state chain nHeight
  let coinbase ← orAssert block.vtx.head?
  rejectIf (2 ≤ block.nVersion && isSuperMajority env.consensus 2 chain &&
      !(coinbase.vin.head?.any fun i => (pushHeight nHeight).isPrefixOf i.scriptSig))
    (state.doS 100 REJECT_INVALID "bad-cb-height")
  checkWitness env block coinbase chain state
  rejectIf (MAX_BLOCK_WEIGHT < block.getBlockWeight) (state.doS 100 REJECT_INVALID "bad-blk-weight")
  rejectIf (block.isProofOfStake && coinbase.vout.any (paysWithoutArray coinbase)) (state.doS 100)

/-- The coinbase of an accepted proof-of-stake block pays nothing, or its text is an array. -/
theorem contextualCheckBlock_coinbase {env : Env} {block : CBlock} {state : CValidationState}
    {chain : PrevChain} {coinbase : CTransaction} {rest : List CTransaction}
    (hvtx : block.vtx = coinbase :: rest) (hpos : block.isProofOfStake = true)
    (h : contextualCheckBlock env block state chain = .ok ()) :
    UniValue.readsArray coinbase.strDZeel = true ∨ ∀ o ∈ coinbase.vout, o.nValue ≤ 0 := by
  unfold contextualCheckBlock at h
  simp only [bind_eq_ok, orAssert_eq_ok, hvtx, List.head?_cons, Option.some.injEq,
    exists_eq_left', rejectIf_eq_ok] at h
  obtain ⟨-, -, -, -, -, -, -, -, hlast⟩ := h
  rw [hpos, Bool.true_and, List.any_eq_false] at hlast
  by_cases harr : UniValue.readsArray coinbase.strDZeel = true
  · exact .inl harr
  · refine .inr fun o ho => ?_
    have := hlast o ho
    simp only [paysWithoutArray, harr, Bool.not_false, Bool.and_true, decide_eq_true_eq] at this
    omega

end Chratos
