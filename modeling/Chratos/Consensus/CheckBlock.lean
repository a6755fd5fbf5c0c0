import Chratos.Consensus.Merkle
import Chratos.Consensus.Stake

/-!
# Chratos — checks without context (`main.cpp`: `CheckTransaction`, `CheckBlock`)

What is asked of a transaction and of a block on their own. The results say what acceptance
guarantees, in the form the later modules use: amounts in range (`checkTransaction_spec`),
one coinbase in front (`CheckedBlock.shape`), and, for a proof-of-stake block only, no
coinstake past the second transaction.
-/

namespace Chratos

open Outcome List

/-! ## Transactions -/

/-- One round over the outputs: the running total, or the complaint. -/
def checkOutput (state : CValidationState) (fGenerated : Bool) (nValueOut : Int) (o : CTxOut) :
    Verdict Int := do
  rejectIf (o.isEmpty && !fGenerated) (state.doS 100)
  rejectIf (o.nValue < 0) (state.doS 100 REJECT_INVALID "bad-txns-vout-negative")
  rejectIf (MAX_MONEY < o.nValue) (state.doS 100 REJECT_INVALID "bad-txns-vout-toolarge")
  let nValueOut := int64 (nValueOut + o.nValue)
  rejectIf (!moneyRange nValueOut) (state.doS 100 REJECT_INVALID "bad-txns-txouttotal-toolarge")
  pure nValueOut

/-- One round over the inputs: the outpoints seen so far. -/
def checkDuplicate (state : CValidationState) (seen : List COutPoint) (i : CTxIn) :
    Verdict (List COutPoint) := do
  rejectIf (i.prevout ∈ seen) (state.doS 100 REJECT_INVALID "bad-txns-inputs-duplicate")
  pure (i.prevout :: seen)

def checkTransaction (tx : CTransaction) (state : CValidationState) : Verdict Unit := do
  rejectIf tx.vin.isEmpty (state.doS 10 REJECT_INVALID "bad-txns-vin-empty")
  rejectIf tx.vout.isEmpty (state.doS 10 REJECT_INVALID "bad-txns-vout-empty")
  rejectIf (MAX_BLOCK_BASE_SIZE < (tx.serialize false).length)
    (state.doS 100 REJECT_INVALID "bad-txns-oversize")
  let _ ← tx.vout.foldlM (checkOutput state (tx.isCoinBase || tx.isCoinStake)) 0
  let _ ← tx.vin.foldlM (checkDuplicate state) []
  if tx.isCoinBase then
    rejectIf (tx.vin.any fun i => i.scriptSig.length < 2 || 100 < i.scriptSig.length)
      (state.doS 100 REJECT_INVALID "bad-cb-length")
  else
    rejectIf (tx.vin.any (·.prevout.isNull)) (state.doS 10 REJECT_INVALID "bad-txns-prevout-null")

/-- What `CheckTransaction` grants. -/
structure CheckedTx (tx : CTransaction) : Prop where
  vin_ne : tx.vin ≠ []
  vout_ne : tx.vout ≠ []
  size_le : (tx.serialize false).length ≤ MAX_BLOCK_BASE_SIZE
  outputs_ne : tx.isCoinBase = false → tx.isCoinStake = false → ∀ o ∈ tx.vout, o.isEmpty = false
  range : ∀ o ∈ tx.vout, moneyRange o.nValue = true
  total : moneyRange tx.valueOut = true
  nodup : (tx.vin.map CTxIn.prevout).Nodup
  prevout_ne : tx.isCoinBase = false → ∀ i ∈ tx.vin, i.prevout.isNull = false

variable {state : CValidationState} {block : CBlock} {fGenerated fCheckMerkleRoot fCheckSig : Bool}
  {v : Int} {env : Env}

theorem checkOutput_eq_ok {a : Int} {o : CTxOut} (ha : moneyRange a = true)
    (h : checkOutput state fGenerated a o = .ok v) :
    v = a + o.nValue ∧ moneyRange o.nValue = true ∧ moneyRange v = true ∧
      (fGenerated = false → o.isEmpty = false) := by
  unfold checkOutput at h
  simp only [bind_ok_iff, rejectIf_eq_ok, decide_eq_false_iff_not, not_lt, Bool.and_eq_false_iff,
    Bool.not_eq_false'] at h
  obtain ⟨hempty, hneg, hmax, hrange, hv⟩ := h
  have ho : moneyRange o.nValue = true := moneyRange_iff.mpr ⟨hneg, hmax⟩
  rw [int64_add_of_moneyRange ha ho] at hrange hv
  cases hv
  refine ⟨rfl, ho, hrange, fun hgen => ?_⟩
  rcases hempty with hempty | hempty
  · exact hempty
  · rw [hgen] at hempty
    cases hempty

/-- The loop over the outputs: the running total is the sum of the outputs passed. -/
theorem checkOutputs_spec {outs : List CTxOut}
    (h : outs.foldlM (checkOutput state fGenerated) 0 = .ok v) :
    v = (outs.map CTxOut.nValue).sum ∧ moneyRange v = true ∧
      ∀ o ∈ outs, moneyRange o.nValue = true ∧ (fGenerated = false → o.isEmpty = false) := by
  refine foldlM_ok_rec (fun done v => v = (done.map CTxOut.nValue).sum ∧ moneyRange v = true ∧
      ∀ o ∈ done, moneyRange o.nValue = true ∧ (fGenerated = false → o.isEmpty = false))
    ?_ ⟨rfl, rfl, by simp⟩ h
  rintro done o a b ⟨ha, har, hall⟩ hstep
  obtain ⟨hb, ho, hbr, hempty⟩ := checkOutput_eq_ok har hstep
  refine ⟨by simp [hb, ha], hbr, ?_⟩
  exact forall_mem_append.mpr ⟨hall, forall_mem_singleton.mpr ⟨ho, hempty⟩⟩

/-- The loop over the inputs finds no outpoint twice. -/
theorem checkDuplicates_spec {ins : List CTxIn} {seen : List COutPoint}
    (h : ins.foldlM (checkDuplicate state) [] = .ok seen) : (ins.map CTxIn.prevout).Nodup := by
  have hseen := foldlM_ok_rec (fun done (seen : List COutPoint) =>
      seen = (done.map CTxIn.prevout).reverse ∧ seen.Nodup) ?_ ⟨rfl, nodup_nil⟩ h
  · rw [hseen.1] at hseen
    exact nodup_reverse.mp hseen.2
  · rintro done i s t ⟨hs, hnd⟩ hstep
    simp only [checkDuplicate, bind_ok_iff, rejectIf_eq_ok, decide_eq_false_iff_not] at hstep
    obtain ⟨hnew, ht⟩ := hstep
    cases ht
    exact ⟨by simp [hs], nodup_cons.mpr ⟨hnew, hnd⟩⟩

theorem checkTransaction_spec {tx : CTransaction} (h : checkTransaction tx state = .ok ()) :
    CheckedTx tx := by
  unfold checkTransaction at h
  simp only [bind_eq_ok, rejectIf_eq_ok, exists_unit, decide_eq_false_iff_not, not_lt,
    isEmpty_eq_false_iff] at h
  obtain ⟨hvin, hvout, hsize, v, houts, seen, hdup, hlast⟩ := h
  obtain ⟨hv, hvr, hall⟩ := checkOutputs_spec houts
  exact {
    vin_ne := hvin
    vout_ne := hvout
    size_le := hsize
    outputs_ne := fun hcb hcs o ho => (hall o ho).2 (by simp [hcb, hcs])
    range := fun o ho => (hall o ho).1
    total := by rw [CTransaction.valueOut, ← hv]; exact hvr
    nodup := checkDuplicates_spec hdup
    prevout_ne := fun hcb i hi => by
      rw [if_neg (by simp [hcb]), rejectIf_eq_ok, any_eq_false] at hlast
      simpa using hlast i hi }

def getLegacySigOpCount (tx : CTransaction) : Nat :=
  (tx.vin.map (getSigOpCount ·.scriptSig false)).sum +
    (tx.vout.map (getSigOpCount ·.scriptPubKey false)).sum

/-! ## Blocks -/

section

variable (env : Env) (block : CBlock) (state : CValidationState)

def checkBlockHeader : Verdict Unit :=
  rejectIf (env.mapBlockIndexSize ≤ env.consensus.nLastPOWBlock &&
      !checkProofOfWork env (env.blockHash block) block.nBits)
    (state.doS 50 REJECT_INVALID "high-hash")

/-- `Solver`, when the answer is `TX_PUBKEY`: the key pushed before `OP_CHECKSIG`. The shapes
the solver tries before start with another opcode. -/
def solvePubKey (scriptPubKey : CScript) : Option (List UInt8) :=
  match getOp scriptPubKey with
  | some (opcode, vchPubKey, pc) =>
    if opcode ≤ OP_PUSHDATA4 ∧ 33 ≤ vchPubKey.length ∧ vchPubKey.length ≤ 65 ∧
      pc = [OP_CHECKSIG] then some vchPubKey else none
  | none => none

/-- `CheckBlockSignature`: a proof-of-stake block is signed by the key of the coinstake's
second output. -/
def checkBlockSignature : Bool :=
  if block.isProofOfWork then block.vchBlockSig.isEmpty
  else if block.vchBlockSig.isEmpty then false
  else match block.vtx[1]?.bind (·.vout[1]?) with
    | none => false
    | some txout =>
      match solvePubKey txout.scriptPubKey with
      | some vchPubKey => env.verifyPubKey vchPubKey (env.blockHash block) block.vchBlockSig
      | none => false

/-- The merkle root and its mutations. -/
def checkMerkleRoot : Verdict Unit := do
  let r := blockMerkleRoot env.hash256 block
  rejectIf (block.hashMerkleRoot != r.1) (state.doS 100 REJECT_INVALID "bad-txnmrklroot" true)
  rejectIf r.2 (state.doS 100 REJECT_INVALID "bad-txns-duplicate" true)

/-- The order of generated transactions. The second must be the coinstake of a proof-of-stake
block, and only there are further coinstakes looked for. -/
def checkShape : Verdict Unit := do
  rejectIf (block.isProofOfStake && !(block.vtx.drop 1).head?.any (·.isCoinStake)) (state.doS 100)
  rejectIf (block.isProofOfStake && (block.vtx.drop 2).any (·.isCoinStake)) (state.doS 100)
  rejectIf (block.vtx.isEmpty || MAX_BLOCK_BASE_SIZE < block.vtx.length ||
      MAX_BLOCK_BASE_SIZE < (block.serialize false).length)
    (state.doS 100 REJECT_INVALID "bad-blk-length")
  rejectIf (!block.vtx.head?.any (·.isCoinBase)) (state.doS 100 REJECT_INVALID "bad-cb-missing")
  rejectIf ((block.vtx.drop 1).any (·.isCoinBase)) (state.doS 100 REJECT_INVALID "bad-cb-multiple")

/-- Every transaction on its own; the complaint is restated by `Invalid`. -/
def checkTransactions : Verdict Unit :=
  block.vtx.forM fun tx =>
    match checkTransaction tx state with
    | .error (.rejected s) => .error (.rejected (s.invalid s.chRejectCode s.strRejectReason))
    | r => r

/-- The body of `CheckBlock` behind the `fChecked` shortcut. A bad block signature leaves by
`return error(...)`: the state is the one that came in. -/
def checkBlockBody (fCheckMerkleRoot fCheckSig : Bool) : Verdict Unit := do
  onlyIf block.isProofOfWork (checkBlockHeader env block state)
  onlyIf fCheckMerkleRoot (checkMerkleRoot env block state)
  checkShape block state
  rejectIf (fCheckSig && !checkBlockSignature env block) state
  checkTransactions block state
  rejectIf (MAX_BLOCK_SIGOPS_COST < (block.vtx.map getLegacySigOpCount).sum * WITNESS_SCALE_FACTOR)
    (state.doS 100 REJECT_INVALID "bad-blk-sigops")

/-- `CheckBlock`. Its first flag is passed on but never read. -/
def checkBlock (fCheckMerkleRoot fCheckSig : Bool) : Verdict Unit :=
  if block.fChecked then pure ()
  else checkBlockBody env block state fCheckMerkleRoot fCheckSig

end

/-- One call of `CheckBlock` on a block object: the arguments besides the block. -/
structure CheckBlockCall where
  state : CValidationState := {}
  fCheckPOW : Bool := true
  fCheckMerkleRoot : Bool := true
  fCheckSig : Bool := true

/-- The call with its effect on the block, which is marked when the checks are passed with
`fCheckMerkleRoot`. -/
def CheckBlockCall.run (env : Env) (call : CheckBlockCall) (block : CBlock) : Verdict Unit × CBlock :=
  match checkBlock env block call.state call.fCheckMerkleRoot call.fCheckSig with
  | .ok () => (.ok (), { block with fChecked := block.fChecked || call.fCheckMerkleRoot })
  | .error failure => (.error failure, block)

/-- The block after some calls. -/
def CBlock.afterCalls (env : Env) (block : CBlock) (calls : List CheckBlockCall) : CBlock :=
  calls.foldl (fun block call => (call.run env block).2) block

/-! ## What an accepted block looks like -/

/-- A block that `CheckBlock` has passed. -/
structure CheckedBlock (block : CBlock) : Prop where
  shape : ∃ coinbase rest, block.vtx = coinbase :: rest ∧ coinbase.isCoinBase = true ∧
    ∀ tx ∈ rest, tx.isCoinBase = false
  stake : block.isProofOfStake = true → ∀ tx ∈ block.vtx.drop 2, tx.isCoinStake = false
  size_le : (block.serialize false).length ≤ MAX_BLOCK_BASE_SIZE
  txs : ∀ tx ∈ block.vtx, CheckedTx tx

theorem checkShape_spec (h : checkShape block state = .ok ()) :
    (∃ coinbase rest, block.vtx = coinbase :: rest ∧ coinbase.isCoinBase = true ∧
      ∀ tx ∈ rest, tx.isCoinBase = false) ∧
    (block.isProofOfStake = true → ∀ tx ∈ block.vtx.drop 2, tx.isCoinStake = false) ∧
    (block.serialize false).length ≤ MAX_BLOCK_BASE_SIZE := by
  unfold checkShape at h
  simp only [bind_ok_iff, rejectIf_eq_ok] at h
  obtain ⟨-, hstake, hlen, hfirst, hrest⟩ := h
  refine ⟨?_, ?_, ?_⟩
  · cases hvtx : block.vtx with
    | nil => simp [hvtx] at hfirst
    | cons coinbase rest =>
      refine ⟨coinbase, rest, rfl, by simpa [hvtx] using hfirst, ?_⟩
      simpa [hvtx] using hrest
  · intro hpos
    simpa [hpos] using hstake
  · simp only [Bool.or_eq_false_iff, decide_eq_false_iff_not, not_lt] at hlen
    exact hlen.2

theorem checkTransactions_spec (h : checkTransactions block state = .ok ()) :
    ∀ tx ∈ block.vtx, CheckedTx tx := by
  intro tx htx
  have hround := forM_eq_ok.mp h tx htx
  split at hround
  · cases hround
  · exact checkTransaction_spec hround

theorem checkBlock_spec (hfresh : block.fChecked = false)
    (h : checkBlock env block state fCheckMerkleRoot fCheckSig = .ok ()) : CheckedBlock block := by
  rw [checkBlock, if_neg (by simp [hfresh])] at h
  unfold checkBlockBody at h
  simp only [bind_ok_iff] at h
  obtain ⟨-, -, hshape, -, htxs, -⟩ := h
  obtain ⟨hcb, hstake, hsize⟩ := checkShape_spec hshape
  exact ⟨hcb, hstake, hsize, checkTransactions_spec htxs⟩

/-- `CheckBlock` marks the blocks it has passed and does not look at a marked block again: the mark
must have been earned. -/
def CBlock.MarkEarned (env : Env) (state : CValidationState) (block : CBlock) : Prop :=
  block.fChecked = true → checkBlock env { block with fChecked := false } state true true = .ok ()

theorem CBlock.MarkEarned.checkedBlock (hmark : block.MarkEarned env state)
    (h : checkBlock env block state fCheckMerkleRoot fCheckSig = .ok ()) : CheckedBlock block := by
  cases hchecked : block.fChecked with
  | false => exact checkBlock_spec hchecked h
  | true =>
    have hblock := checkBlock_spec rfl (hmark hchecked)
    exact ⟨hblock.shape, hblock.stake, hblock.size_le, hblock.txs⟩

end Chratos
