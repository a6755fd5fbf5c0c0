import Chratos.Properties.Conservation
import Chratos.Relay.CompactBlock

/-!
# Chratos — which blocks survive a compact announcement (`blockencodings.cpp`)

The announcement carries `vchBlockSig`, and the receiver never reads it: `FillBlock` starts from
`block = header`, which clears the signature, and hands the result to `CheckBlock`. A proof-of-work
block has no signature to lose (`checkFilled_work`). Every proof-of-stake block comes back as
`READ_STATUS_INVALID`, the answer to a peer that sends rubbish (`checkFilled_stake`).

The header counts as null when its `nBits` is zero. `CheckBlock` can pass such a block, because it
looks at the work of early blocks only, and `InitData` refuses it.

`reconstruct_iff` is the law.
-/

namespace Chratos

open Outcome PartiallyDownloadedBlock List CTransaction

variable {block : CBlock} {relay : RelayEnv} {nonce : UInt64} {pool : List CTransaction}

section

variable {env : Env}

/-- A marked block has passed `CheckBlock` before it was marked. -/
theorem CBlock.MarkEarned.unmarked (hmark : block.MarkEarned env {})
    (hcheck : checkBlock env block {} true true = .ok ()) :
    checkBlockBody env block {} true true = .ok () := by
  cases hchecked : block.fChecked with
  | true => exact hmark hchecked
  | false =>
    rw [checkBlock, hchecked] at hcheck
    exact hcheck

/-! ## The last check -/

theorem checkFilled_work (hcheck : checkBlockBody env block {} true true = .ok ())
    (hwork : block.isProofOfWork = true) : block.vchBlockSig = [] ∧
      checkFilled env (ofHeader block.toCBlockHeader block.vtx) =
        .ok { ofHeader block.toCBlockHeader block.vtx with fChecked := true } := by
  have hsig : block.vchBlockSig = [] := by
    simp only [checkBlockBody, bind_ok_iff, rejectIf_eq_ok, Bool.true_and,
      Bool.not_eq_false'] at hcheck
    obtain ⟨-, -, -, hsigned, -, -⟩ := hcheck
    rw [checkBlockSignature, if_pos hwork] at hsigned
    exact isEmpty_iff.mp hsigned
  refine ⟨hsig, ?_⟩
  have hbody : checkBlock env (ofHeader block.toCBlockHeader block.vtx) {} true true = .ok () := by
    have heq : ofHeader block.toCBlockHeader block.vtx = { block with fChecked := false } := by
      rw [ofHeader, ← hsig]
    rw [heq]
    exact hcheck
  rw [checkFilled, hbody]

/-- Without its signature a block is no longer. -/
theorem length_ofHeader_le : ((ofHeader block.toCBlockHeader block.vtx).serialize false).length ≤
      (block.serialize false).length := by
  have hempty : (serBytes []).length ≤ (serBytes block.vchBlockSig).length := by
    have hpos := length_writeCompactSize_pos block.vchBlockSig.length
    have hone : (serBytes []).length = 1 := by decide
    rw [hone, serBytes, length_append]
    omega
  simp only [CBlock.serialize, ofHeader, length_append] at hempty ⊢
  omega

/-- Everything up to the signature passes as before; the signature is missing, and the state is left
as it was. -/
theorem checkFilled_stake (hcheck : checkBlockBody env block {} true true = .ok ())
    (hstake : block.isProofOfStake = true) :
    checkFilled env (ofHeader block.toCBlockHeader block.vtx) = .error .READ_STATUS_INVALID := by
  have hstake' : (ofHeader block.toCBlockHeader block.vtx).isProofOfStake = true := hstake
  have hwork' : (ofHeader block.toCBlockHeader block.vtx).isProofOfWork = false := by
    rw [CBlock.isProofOfWork, hstake']
    rfl
  simp only [checkBlockBody, bind_ok_iff] at hcheck
  obtain ⟨-, hmerkle, hshape, -⟩ := hcheck
  have hmerkle' : checkMerkleRoot env (ofHeader block.toCBlockHeader block.vtx) {} = .ok () :=
    hmerkle
  have hshape' : checkShape (ofHeader block.toCBlockHeader block.vtx) {} = .ok () := by
    simp only [checkShape, bind_ok_iff, rejectIf_eq_ok, Bool.or_eq_false_iff,
      decide_eq_false_iff_not, not_lt] at hshape ⊢
    obtain ⟨hsecond, hothers, ⟨hsome, hsize⟩, hcoinbase⟩ := hshape
    exact ⟨hsecond, hothers, ⟨hsome, length_ofHeader_le.trans hsize⟩, hcoinbase⟩
  have hsig : checkBlockSignature env (ofHeader block.toCBlockHeader block.vtx) = false := by
    rw [checkBlockSignature, hwork']
    rfl
  have hbody : checkBlock env (ofHeader block.toCBlockHeader block.vtx) {} true true =
      .error (.rejected {}) := by
    show checkBlockBody env (ofHeader block.toCBlockHeader block.vtx) {} true true = _
    rw [checkBlockBody, hwork', onlyIf, hmerkle', hshape', hsig]
    rfl
  rw [checkFilled, hbody]
  rfl

end

/-! ## The law -/

/-- A null header is refused before anything is looked up. -/
theorem reconstruct_null (hbits : block.nBits = 0) :
    ∀ r, reconstruct relay nonce pool block ≠ .ok r := by
  intro r hr
  obtain ⟨cmpctblock, hmsg, hrest⟩ := bind_eq_ok.mp hr
  obtain ⟨partialBlock, hinit, -⟩ := bind_eq_ok.mp hrest
  have hnull := (failIf_bind_eq_ok.mp hinit).1
  have hheader : cmpctblock.header = block.toCBlockHeader := by
    unfold CBlockHeaderAndShortTxIDs.ofBlock at hmsg
    split at hmsg
    · cases hmsg
    · cases hmsg
      rfl
  rw [hheader, CBlockHeader.isNull, hbits] at hnull
  simp at hnull

/-- **What reconstruction returns.** A block that `CheckBlock` accepts comes back, with its header,
transactions and signature, exactly if it is a proof-of-work block with a target. -/
theorem reconstruct_iff (hmark : block.MarkEarned relay.toEnv {})
    (hcheck : checkBlock relay.toEnv block {} true true = .ok ())
    (h : Announceable relay nonce pool block) :
    (∃ r, reconstruct relay nonce pool block = .ok r ∧ r.toCBlockHeader = block.toCBlockHeader ∧
        r.vtx = block.vtx ∧ r.vchBlockSig = block.vchBlockSig) ↔
      block.isProofOfWork = true ∧ block.nBits ≠ 0 := by
  have hblock := hmark.checkedBlock hcheck
  have hbody := hmark.unmarked hcheck
  obtain ⟨coinbase, rest, hvtx, hcb, -⟩ := hblock.shape
  have hcoinbase : coinbase.isNull = false := by
    obtain ⟨i, hvin, -⟩ := isCoinBase_iff.mp hcb
    rw [isNull, hvin]
    rfl
  constructor
  · rintro ⟨r, hr, -⟩
    have hbits : block.nBits ≠ 0 := fun hzero => reconstruct_null hzero r hr
    refine ⟨?_, hbits⟩
    by_contra hstake
    rw [reconstruct_eq h hvtx hcoinbase hbits, checkFilled_stake hbody] at hr
    · cases hr
    · simpa [CBlock.isProofOfWork] using hstake
  · rintro ⟨hwork, hbits⟩
    obtain ⟨hsig, hfilled⟩ := checkFilled_work hbody hwork
    refine ⟨_, (reconstruct_eq h hvtx hcoinbase hbits).trans hfilled, rfl, rfl, ?_⟩
    rw [hsig]
    rfl

/-! ## Two announcements -/

/-- Identifiers are the low bytes of the hash, and there is one bucket for each. -/
def sampleRelay (nHeight : Nat) : RelayEnv where
  toEnv := sampleEnv nHeight
  sha256 := sampleHash
  sipHashUint256 := fun _ _ txhash => getUint64 txhash 0
  bucket := fun _ id => id.toNat

/-- A few transactions cannot fill a bucket. -/
theorem Announceable.of_short (hcount : block.vtx.tail.length ≤ 12)
    (hdistinct : (block.vtx.tail.map (relay.shortID block.toCBlockHeader nonce)).Nodup)
    (hapart : ∀ tx ∈ pool, tx ∉ block.vtx.tail → ∀ own ∈ block.vtx.tail,
      relay.shortID block.toCBlockHeader nonce tx ≠ relay.shortID block.toCBlockHeader nonce own) :
    Announceable relay nonce pool block := by
  refine ⟨?_, hdistinct, fun b => ?_, hapart⟩
  · rw [length_tail] at hcount
    omega
  · refine countP_le_length.trans ?_
    rw [length_map]
    exact hcount

/-- A pool that holds the payment of the block and a stranger. -/
theorem workBlock_reconstructed :
    ∃ r, reconstruct (sampleRelay 100) 7 [samplePayment 0 1532376000 [0x51] (1000 * COIN),
        samplePayment 5 1532376000 [0x51] 1] (workBlock (1000 * COIN)) = .ok r ∧
      r.toCBlockHeader = (workBlock (1000 * COIN)).toCBlockHeader ∧
      r.vtx = (workBlock (1000 * COIN)).vtx ∧
      r.vchBlockSig = (workBlock (1000 * COIN)).vchBlockSig := by
  refine (reconstruct_iff (fun hmarked => by cases hmarked) ?_ ?_).mpr ?_
  · decide +kernel
  · exact .of_short (by decide +kernel) (by decide +kernel) (by decide +kernel)
  · decide +kernel

/-- A proof-of-stake block that `CheckBlock` accepts, announced to a node that has its coinstake: the
node calls the announcement invalid. -/
theorem stakeBlock_lost : let block := stakeBlock [0x51] 0 []
    let pool := [sampleStake 0 1532376016 [0x51] (1012 * COIN)]
    block.isProofOfStake = true ∧ checkBlock (sampleRelay 101).toEnv block {} true true = .ok () ∧
      Announceable (sampleRelay 101) 7 pool block ∧
      reconstruct (sampleRelay 101) 7 pool block = .error .READ_STATUS_INVALID := by
  refine ⟨by decide +kernel, by decide +kernel, ?_, by decide +kernel⟩
  exact .of_short (by decide +kernel) (by decide +kernel) (by decide +kernel)

example : (workBlock COIN).isProofOfStake = false := by decide +kernel

end Chratos
