import Chratos.Properties.ChainSelection
import Chratos.Properties.Maturity

/-!
# Chratos — a reorganisation that fails

`ActivateBestChain` disconnects the old branch before it connects the new one. When a block of the new
branch is rejected and the validation state says so, the block is marked and the best of what is left
is activated, which is the old branch or better. But `ConnectBlock` also returns `error(...)` with a
state that is not invalid: after a bad block signature, a failed kernel, or a coinstake whose age cannot
be computed. `ActivateBestChainStep` takes that for a system error and returns at once, with the tip at
the fork.
-/

namespace Chratos

open Outcome Option CValidationState

variable {c : Bool} {level : Int} {code : Nat} {reason : String}

/-! ## Rejections that are reported -/

/-- A rejection is not for corrupted data, and it shows in the state unless `silent` holds. -/
def Failure.Reported (silent : Prop) : Failure → Prop
  | .rejected state => (silent ∨ state.isInvalid = true) ∧ state.corruptionPossible = false
  | _ => True

/-- A check that is rejected in no other way. -/
abbrev Reports {α : Type} (silent : Prop) (v : Verdict α) : Prop :=
  FailsWith (Failure.Reported silent) v

section

variable {silent : Prop} {state : CValidationState} (hs : state.mode ≠ .MODE_ERROR) {env : Env}
  {block : CBlock}

include hs

theorem doS_reported (level : Int) (code : Nat) (reason : String) :
    (Failure.rejected (state.doS level code reason)).Reported silent := by
  refine ⟨.inr (doS_isInvalid hs level code reason false), ?_⟩
  unfold doS
  rw [if_neg hs]

theorem rejectIf_reported : Reports silent (rejectIf c (state.doS level code reason)) :=
  .failIf fun _ => doS_reported hs level code reason

theorem rejectIf_then {α : Type} {f : Unit → Verdict α} (h : Reports silent (f ())) :
    Reports silent (rejectIf c (state.doS level code reason) >>= f) :=
  (rejectIf_reported hs).bind fun _ _ => h

omit hs in
theorem orAssert_reported {α : Type} (o : Option α) : Reports silent (orAssert o) := by
  cases o with
  | none => exact .error trivial
  | some a => exact .ok a

omit hs in
theorem orThrow_reported {α : Type} (o : Option α) : Reports silent (orThrow o) := by
  cases o with
  | none => exact .error trivial
  | some a => exact .ok a

omit hs in
theorem onlyIf_reported {v : Verdict Unit} (h : Reports silent v) : Reports silent (onlyIf c v) := by
  cases c with
  | false => exact .ok ()
  | true => exact h

/-! ### `CheckBlock` -/

theorem checkTransaction_reported (tx : CTransaction) : Reports silent (checkTransaction tx state) := by
  refine rejectIf_then hs <| rejectIf_then hs <|
    rejectIf_then hs <| .bind ?_ fun _ _ => .bind ?_ fun _ _ => ?_
  · refine .foldlM (fun o _ a => ?_) 0
    exact rejectIf_then hs <| rejectIf_then hs <| rejectIf_then hs <| rejectIf_then hs <| .ok _
  · refine .foldlM (fun i _ seen => ?_) []
    exact rejectIf_then hs <| .ok _
  · split
    · exact rejectIf_reported hs
    · exact rejectIf_reported hs

theorem checkTransactions_reported : Reports silent (checkTransactions block state) := by
  refine .forM fun tx _ => ?_
  have htx : Reports False (checkTransaction tx state) := checkTransaction_reported hs tx
  cases hcheck : checkTransaction tx state with
  | ok u => exact .ok u
  | error failure =>
    cases failure with
    | rejected st =>
      -- `Invalid` restates a complaint, so the state is as invalid as before
      have hinvalid : st.isInvalid = true := (htx _ hcheck).1.resolve_left id
      have hmode : st.mode ≠ .MODE_ERROR := by
        intro herror
        unfold isInvalid at hinvalid
        rw [herror] at hinvalid
        cases hinvalid
      exact .error (doS_reported hmode 0 st.chRejectCode st.strRejectReason)
    | thrown => exact .error trivial
    | asserted => exact .error trivial

/-- `CheckBlock` on data that the header commits to is silent on a bad signature only. -/
theorem checkBlock_reported (hclean : state.corruptionPossible = false)
    (hmerkle : block.fChecked = false → checkMerkleRoot env block state = .ok ())
    (hsignature : block.fChecked = false → checkBlockSignature env block = false → silent)
    (fCheckMerkleRoot fCheckSig : Bool) :
    Reports silent (checkBlock env block state fCheckMerkleRoot fCheckSig) := by
  unfold checkBlock
  split
  · exact .ok ()
  · rename_i hchecked
    have hfresh : block.fChecked = false := Bool.not_eq_true _ ▸ hchecked
    refine (onlyIf_reported ?_).bind fun _ _ => (onlyIf_reported ?_).bind fun _ _ =>
      .bind ?_ fun _ _ => .bind ?_ fun _ _ =>
      (checkTransactions_reported hs).bind fun _ _ => rejectIf_reported hs
    · exact rejectIf_reported hs
    · rw [hmerkle hfresh]
      exact .ok ()
    · unfold checkShape
      exact rejectIf_then hs <| rejectIf_then hs <| rejectIf_then hs <| rejectIf_then hs <|
        rejectIf_reported hs
    · refine .failIf fun hbad => ⟨.inl (hsignature hfresh ?_), hclean⟩
      exact Bool.not_eq_true' _ ▸ (Bool.and_eq_true_iff.mp hbad).2

/-! ### Stake -/

omit hs in
theorem checkProofOfStake_reported (pprev : PrevChain) (tx : CTransaction) (nBits : UInt32) :
    Reports silent (checkProofOfStake env pprev tx nBits) := by
  unfold checkProofOfStake
  split
  · exact .ok _
  · refine (orAssert_reported _).bind fun txin _ => ?_
    split
    · exact .ok _
    · split
      · exact .ok _
      · split
        · exact .ok _
        · refine (orAssert_reported _).bind fun pindexPrev _ => ?_
          unfold checkStakeKernelHash
          split
          · exact .ok _
          · split
            · exact .ok _
            · refine (orAssert_reported _).bind fun out _ => ?_
              dsimp only
              split <;> exact .ok _

omit hs in
theorem transactionGetCoinAge_reported (tx : CTransaction) :
    Reports silent (transactionGetCoinAge env tx) := by
  unfold transactionGetCoinAge
  split
  · exact .ok _
  · refine .bind (.foldlM (fun txin _ acc => ?_) _) fun _ _ => .ok _
    cases acc with
    | none => exact .ok _
    | some age =>
      show FailsWith _ (addCoinAge env tx.nTime age txin)
      unfold addCoinAge
      split
      · exact .ok _
      · split
        · exact .ok _
        · split
          · exact .ok _
          · split
            · exact .ok _
            · exact (orAssert_reported _).bind fun _ _ => .ok _

theorem checkStake_reported {pprev : PrevChain} (hclean : state.corruptionPossible = false)
    (hkernel : block.isProofOfStake = true → ∀ tx, block.vtx[1]? = some tx →
      checkProofOfStake env pprev tx block.nBits = .ok none → silent) :
    Reports silent (checkStake env block state pprev) := by
  refine (orAssert_reported _).bind fun nBits _ => rejectIf_then hs <|
    .bind ?_ fun hashProof _ => ?_
  · unfold blockProof
    split
    · rename_i hpos
      refine (orAssert_reported _).bind fun tx htx =>
        (checkProofOfStake_reported pprev tx block.nBits).bind fun proof hproof => ?_
      cases proof with
      | none => exact .error ⟨.inl (hkernel hpos tx (orAssert_eq_ok.mp htx) hproof), hclean⟩
      | some hashProof => exact .ok _
    · exact .ok _
  · split
    · exact .ok _
    · exact .error (doS_reported hs 1 REJECT_INVALID "bad-stake-modifier")

theorem checkReward_reported {nHeight : Nat} {s : ConnectState}
    (hclean : state.corruptionPossible = false)
    (hage : block.isProofOfStake = true → ∀ tx, block.vtx[1]? = some tx →
      transactionGetCoinAge env tx = .ok none → silent) :
    Reports silent (checkReward env block state nHeight s) := by
  unfold checkReward
  split
  · rename_i hpos
    refine (orAssert_reported _).bind fun tx htx =>
      (transactionGetCoinAge_reported tx).bind fun age hage' => ?_
    cases age with
    | none => exact .error ⟨.inl (hage hpos tx (orAssert_eq_ok.mp htx) hage'), hclean⟩
    | some _ => exact rejectIf_reported hs
  · exact (orAssert_reported _).bind fun _ _ => (orThrow_reported _).bind fun _ _ =>
      rejectIf_reported hs

/-! ### Transactions -/

omit hs in
theorem inputAmount_reported (view : CCoinsView) (txin : CTxIn) :
    Reports silent (inputAmount env view txin) :=
  (orAssert_reported _).bind fun _ _ => orThrow_reported _

theorem checkInputs_reported (tx : CTransaction) (view : CCoinsView) (fScriptChecks : Bool)
    (flags : ScriptFlags) (fQueue : Bool) :
    Reports silent (checkInputs env tx state view fScriptChecks flags fQueue) := by
  unfold checkInputs
  split
  · exact .ok _
  · refine .bind ?_ fun nSpendHeight _ => .bind ?_ fun _ _ => ?_
    · exact (orAssert_reported _).bind fun _ _ => .ok _
    · unfold checkTxInputs
      refine rejectIf_then hs <|
        .bind (.foldlM (fun txin _ nValueIn => ?_) _) fun _ _ => onlyIf_reported ?_
      · exact rejectIf_then hs <| (inputAmount_reported view txin).bind fun _ _ =>
          rejectIf_then hs <| .ok _
      · exact (orThrow_reported _).bind fun _ _ => rejectIf_then hs <|
          rejectIf_then hs <| rejectIf_reported hs
    · split
      · refine .foldlM (fun input _ vChecks => ?_) []
        refine rejectIf_then hs <| (orAssert_reported _).bind fun o _ => ?_
        dsimp only
        split
        · exact .ok _
        · split
          · exact .ok _
          · refine .error ?_
            unfold scriptFailure
            split
            · exact doS_reported hs 0 REJECT_NONSTANDARD _
            · exact doS_reported hs 100 REJECT_INVALID _
      · exact .ok _

omit hs in
theorem getTransactionSigOpCost_reported (tx : CTransaction) (view : CCoinsView) (flags : ScriptFlags) :
    Reports silent (getTransactionSigOpCost tx view flags) := by
  unfold getTransactionSigOpCost
  split
  · exact .ok _
  · exact (orAssert_reported _).bind fun _ _ => (FailsWith.failIf fun _ => trivial).bind fun _ _ =>
      .ok _

omit hs in
theorem tallyTx_reported (tx : CTransaction) (s : ConnectState) :
    Reports silent (tallyTx env tx s) := by
  unfold tallyTx
  split
  · exact .ok _
  · refine .bind ?_ fun _ _ => (orThrow_reported _).bind fun _ _ => ?_
    · unfold getValueIn
      split
      · exact .ok _
      · exact .foldlM (fun txin _ _ =>
          (inputAmount_reported s.view txin).bind fun _ _ => .ok _) _
    · split <;> exact .ok _

omit hs in
theorem updateCoins_reported (txid : Uint256) (tx : CTransaction) (view : CCoinsView) (nHeight : Nat) :
    Reports silent (updateCoins txid tx view nHeight) := by
  refine .bind ?_ fun _ _ => .ok _
  unfold spendInputs
  split
  · exact .ok _
  · exact .foldlM (fun _ _ _ => (orAssert_reported _).bind fun _ _ => .ok _) _

theorem connectTx_reported (pindex : BlockPlace) (fQueue : Bool) (s : ConnectState × List CScriptCheck)
    (txi : CTransaction × Nat) : Reports silent (connectTx env block state pindex fQueue s txi) := by
  refine (onlyIf_reported ?_).bind fun _ _ => (getTransactionSigOpCost_reported _ _ _).bind fun _ _ =>
    rejectIf_then hs <| (tallyTx_reported txi.1 s.1).bind fun _ _ =>
    (checkInputs_reported hs txi.1 s.1.view _ _ fQueue).bind fun _ _ => .bind ?_ fun _ _ =>
    (updateCoins_reported _ txi.1 s.1.view pindex.nHeight).bind fun _ _ => .ok _
  · exact rejectIf_then hs <| (orAssert_reported _).bind fun _ _ =>
      rejectIf_reported hs
  · unfold mintedBy
    split
    · exact orThrow_reported _
    · split <;> exact .ok _

end

/-! ## `ConnectBlock`

All other rejections leave the state invalid (`connectBlock_reported`).
-/

/-- A call of `ConnectBlock` without a system error before it, on data that has not changed since the
block was accepted. -/
structure ConnectCall.Intact (call : ConnectCall) : Prop where
  state : call.state.mode ≠ .MODE_ERROR
  clean : call.state.corruptionPossible = false
  merkle : call.block.fChecked = false → checkMerkleRoot call.env call.block call.state = .ok ()

/-- The block meets one of the three silent rejections, or `ConnectBlock` does not return: it throws or
fails an assertion. -/
inductive ConnectCall.Silent (call : ConnectCall) (view : CCoinsView) : Prop where
  | signature (hfresh : call.block.fChecked = false)
      (hbad : checkBlockSignature call.env call.block = false)
  | kernel (hpos : call.block.isProofOfStake = true) (tx : CTransaction)
      (htx : call.block.vtx[1]? = some tx)
      (hkernel : checkProofOfStake call.env call.pindex.pprev tx call.block.nBits = .ok none)
  | coinAge (hpos : call.block.isProofOfStake = true) (tx : CTransaction)
      (htx : call.block.vtx[1]? = some tx) (hage : transactionGetCoinAge call.env tx = .ok none)
  | stops (failure : Failure) (hrun : call.run view = .error failure)
      (hstop : ∀ st, failure ≠ .rejected st)

variable {call : ConnectCall} {view : CCoinsView}

theorem connectBlock_reported (h : call.Intact) : Reports (call.Silent view) (call.run view) := by
  have hs := h.state
  refine (checkBlock_reported hs h.clean h.merkle .signature _ _).bind fun _ _ =>
    (FailsWith.failIf fun _ => trivial).bind fun _ _ => ?_
  dsimp only
  split
  · exact .ok _
  · refine (checkStake_reported hs h.clean .kernel).bind fun _ _ => .bind ?_ fun _ _ =>
      .bind ?_ fun _ _ => (checkReward_reported hs h.clean .coinAge).bind fun _ _ => .ok _
    · exact rejectIf_reported hs
    · exact .foldlM (fun txi _ s => connectTx_reported hs _ _ s txi) _

/-- What `ConnectTip` learns from a call. An exception leaves it as a bare error does. -/
def ConnectCall.verdict (call : ConnectCall) (view : CCoinsView) : ConnectVerdict :=
  let fStake := accepts (do
    checkBlock call.env call.block call.state true true
    checkStake call.env call.block call.state call.pindex.pprev)
  match call.run view with
  | .ok _ => .valid
  | .error (.rejected state) =>
    if state.isInvalid then .invalid state.corruptionPossible fStake else .error fStake
  | .error _ => .error fStake

/-- The verdicts on a tree whose blocks are connected by these calls, on these coins. -/
def validatorOf {ι : Type} (hashGenesisBlock : ι) (calls : ι → ConnectCall) (views : ι → CCoinsView) :
    Validator ι where
  hashGenesisBlock := hashGenesisBlock
  connectBlock := fun b => (calls b).verdict (views b)

theorem ConnectCall.Intact.verdict_of_isInvalid (h : call.Intact) {st : CValidationState}
    (hrun : call.run view = .error (.rejected st)) (hinvalid : st.isInvalid = true) :
    ∃ fStake, call.verdict view = .invalid false fStake := by
  unfold ConnectCall.verdict
  rw [hrun]
  dsimp only
  rw [if_pos hinvalid, (connectBlock_reported h _ hrun).2]
  exact ⟨_, rfl⟩

theorem ConnectCall.Intact.verdict (h : call.Intact) (view : CCoinsView) :
    call.verdict view = .valid ∨ (∃ fStake, call.verdict view = .invalid false fStake) ∨
      call.Silent view ∧ ∃ fStake, call.verdict view = .error fStake := by
  cases hrun : call.run view with
  | ok r =>
    unfold ConnectCall.verdict
    rw [hrun]
    exact .inl rfl
  | error failure =>
    refine .inr ?_
    cases failure with
    | rejected st =>
      by_cases hinvalid : st.isInvalid = true
      · exact .inl (h.verdict_of_isInvalid hrun hinvalid)
      · have hsilent := (connectBlock_reported h _ hrun).1.resolve_right hinvalid
        unfold ConnectCall.verdict
        rw [hrun]
        exact .inr ⟨hsilent, _, if_neg hinvalid⟩
    | thrown | asserted =>
      have hsilent : call.Silent view := .stops _ hrun nofun
      unfold ConnectCall.verdict
      rw [hrun]
      exact .inr ⟨hsilent, _, rfl⟩

namespace BlockTree

variable {ι : Type} [LinearOrder ι] {g : ι} {calls : ι → ConnectCall} {views : ι → CCoinsView}
  {s : BlockTree ι} {t : ι} {v : Validator ι}

/-- A rejected block is marked and is no candidate any more. -/
theorem connectTip_rejected {b : ι} (hprev : s.pprev b = s.tip)
    (hdata : (s.nStatus b).haveData = true) {fStake : Bool}
    (hverdict : v.connectBlock b = .invalid false fStake) :
    ∃ s', s.connectTip v b = .ok (.invalid s' false) ∧ (s'.nStatus b).failedValid = true ∧
      b ∉ s'.setBlockIndexCandidates := by
  refine ⟨(s.setStatus b (rejectedStatus fStake)).invalidBlockFound b false, ?_, ?_⟩
  · unfold connectTip
    rw [if_neg (not_not.mpr hprev), hdata, hverdict]
    rfl
  · unfold invalidBlockFound invalidChainFound
    rw [if_neg Bool.false_ne_true]
    have hgone : b ∉ s.setBlockIndexCandidates.filter (· ≠ b) := fun hmem =>
      of_decide_eq_true (List.mem_filter.mp hmem).2 rfl
    have hmarked : ∀ (σ : ι → BlockStatus) (st : BlockStatus),
        (Function.update σ b { st with failedValid := true } b).failedValid = true := fun σ st => by
      rw [Function.update_self]
    split_ifs
    · exact ⟨hmarked _ _, hgone⟩
    · exact ⟨hmarked _ _, hgone⟩

theorem reached_of_runCalls {nBits : UInt32} {cs : List (Call ι)}
    (h : (initBlockIndex v nBits 1).toOption.bind (runCalls v cs) = some s) :
    Reached v (fun _ _ => True) s := by
  obtain ⟨s₀, hinit, hrun⟩ := bind_eq_some_iff.mp h
  cases hok : initBlockIndex v nBits 1 with
  | error e =>
    rw [hok] at hinit
    cases hinit
  | ok s₁ =>
    rw [hok] at hinit
    obtain rfl := some.inj hinit
    exact Reached.runCalls cs (.init (by decide) (by decide) hok) hrun

/-- The coins when there is nothing but genesis. -/
def genesisCoins : CCoinsView := (ChainState.start 1000).view

theorem quietCall_verdict : (quietCall 1).verdict genesisCoins = .valid := by
  decide +kernel

theorem quietCall_intact : (quietCall 1).Intact :=
  ⟨by decide, rfl, fun _ => by decide +kernel⟩

/-- A block on genesis with a coinstake whose input the node has not in its index. -/
def strayStakeCall : ConnectCall :=
  { chainCall 1 2 [] with
    block := { sampleBlock 1 (sampleIndex 1).nTime 0x1e0fffff [1]
        [sampleCoinbase 1 (sampleIndex 1).nTime 0 [],
          sampleStake 0 (sampleIndex 1).nTime [0x51] COIN] with
      nNonce := 2 } }

/-- Block 2 is that block, the others have nothing but a coinbase. -/
def strayStakeValidator : Validator Nat :=
  validatorOf 0 (fun b => if b = 2 then strayStakeCall else quietCall 1) fun _ => genesisCoins

/-- Block 1 is active when 2, on genesis too, and 3, on 2, arrive. -/
def heavierBranch : List (Call Nat) :=
  [.addToBlockIndex ⟨1, some 0, 0x207fffff⟩, .receivedBlockTransactions 1 1 0, .activateBestChain,
    .addToBlockIndex ⟨2, some 0, 0x207fffff⟩, .addToBlockIndex ⟨3, some 2, 0x207fffff⟩,
    .receivedBlockTransactions 2 1 0, .receivedBlockTransactions 3 1 0]

end BlockTree

end Chratos
