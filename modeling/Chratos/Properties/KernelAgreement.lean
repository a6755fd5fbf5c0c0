import Chratos.Properties.KernelReads

/-!
# Chratos — the staker's kernels and the validator's (`main.cpp`)

`CheckKernel` tells a staker which coins may stake now, `CheckProofOfStake` tells a node whether a
block may have staked. Both end in `CheckStakeKernelHash`. The validator leaves the minimum age to
it, where the sum of the block's time and the age has 32 bits. The staker asks for the age before,
in 64 bits. Where the coin's transaction is not in its wallet it returns a string literal: a pointer
that is not null, and so `true`.
-/

namespace Chratos

open Outcome

/-- `CheckKernel`. `inWallet` is `mapWallet.count`. -/
def checkKernel (env : Env) (inWallet : Uint256 → Bool) (pindexPrev : CBlockIndex) (nBits : UInt32)
    (nTime : Int) (prevout : COutPoint) : Verdict Bool :=
  match env.getTransaction prevout.hash with
  | none => pure false
  | some (txPrev, hashBlock) =>
    match env.mapBlockIndex hashBlock with
    | none => pure false
    | some pblockindex =>
      if nTime < (pblockindex.nTime.toNat : Int) + env.consensus.nStakeMinAge.toNat then pure false
      else if !inWallet prevout.hash then
        -- return("CheckProofOfStake(): Couldn't get Tx Index")
        pure true
      else do
        let proof ← checkStakeKernelHash env pindexPrev nBits pblockindex.nTime txPrev prevout
          (UInt32.ofNat (nTime % 2 ^ 32).toNat)
        pure proof.isSome

section

variable {env : Env} {inWallet : Uint256 → Bool} {pindexPrev : CBlockIndex} {nBits nTime : UInt32}
  {prevout : COutPoint}

/-- The coin's transaction and its block are known. -/
def KnownCoin (env : Env) (prevout : COutPoint) (txPrev : CTransaction)
    (pblockindex : CBlockIndex) : Prop :=
  ∃ hashBlock, env.getTransaction prevout.hash = some (txPrev, hashBlock) ∧
    env.mapBlockIndex hashBlock = some pblockindex

variable {txPrev : CTransaction} {pblockindex : CBlockIndex}

theorem KnownCoin.unique {txPrev' : CTransaction} {pblockindex' : CBlockIndex}
    (h : KnownCoin env prevout txPrev pblockindex) (h' : KnownCoin env prevout txPrev' pblockindex') :
    txPrev = txPrev' ∧ pblockindex = pblockindex' := by
  obtain ⟨hashBlock, hfound, hknown⟩ := h
  obtain ⟨hashBlock', hfound', hknown'⟩ := h'
  cases hfound.symm.trans hfound'
  cases hknown.symm.trans hknown'
  exact ⟨rfl, rfl⟩

/-- There is one transaction and one block to speak of. -/
theorem KnownCoin.exists_iff (h : KnownCoin env prevout txPrev pblockindex)
    {P : CTransaction → CBlockIndex → Prop} :
    (∃ txPrev pblockindex, KnownCoin env prevout txPrev pblockindex ∧ P txPrev pblockindex) ↔
      P txPrev pblockindex := by
  constructor
  · rintro ⟨txPrev', pblockindex', h', hP⟩
    obtain ⟨rfl, rfl⟩ := h.unique h'
    exact hP
  · intro hP
    exact ⟨txPrev, pblockindex, h, hP⟩

/-- Old enough, with nothing lost. -/
def OldEnough (env : Env) (nTime : UInt32) (pblockindex : CBlockIndex) : Prop :=
  pblockindex.nTime.toNat + env.consensus.nStakeMinAge.toNat ≤ nTime.toNat

/-- `CheckStakeKernelHash` returns true. -/
def KernelPasses (env : Env) (pindexPrev : CBlockIndex) (nBits nTime : UInt32) (prevout : COutPoint)
    (txPrev : CTransaction) (pblockindex : CBlockIndex) : Prop :=
  ∃ hash, checkStakeKernelHash env pindexPrev nBits pblockindex.nTime txPrev prevout nTime =
    .ok (some hash)

/-- The staker's answer. -/
theorem checkKernel_eq_true_iff :
    checkKernel env inWallet pindexPrev nBits nTime.toNat prevout = .ok true ↔
      ∃ txPrev pblockindex, KnownCoin env prevout txPrev pblockindex ∧ OldEnough env nTime pblockindex ∧
        (inWallet prevout.hash = true →
          KernelPasses env pindexPrev nBits nTime prevout txPrev pblockindex) := by
  have htime : UInt32.ofNat ((nTime.toNat : Int) % 2 ^ 32).toNat = nTime := by
    have hlt := nTime.toNat_lt
    have hmod : ((nTime.toNat : Int) % 2 ^ 32).toNat = nTime.toNat := by omega
    rw [hmod]
    exact UInt32.ofNat_toNat
  unfold checkKernel
  cases hfound : env.getTransaction prevout.hash with
  | none =>
    simp only [pure, Except.pure, Except.ok.injEq, Bool.false_eq_true, false_iff]
    rintro ⟨txPrev, pblockindex, ⟨hashBlock, hsome, _⟩, _⟩
    rw [hfound] at hsome
    cases hsome
  | some found =>
    obtain ⟨txPrev, hashBlock⟩ := found
    cases hblock : env.mapBlockIndex hashBlock with
    | none =>
      simp only [hblock, pure, Except.pure, Except.ok.injEq, Bool.false_eq_true, false_iff]
      rintro ⟨txPrev', pblockindex, ⟨hashBlock', hsome, hknown⟩, _⟩
      cases hfound.symm.trans hsome
      rw [hblock] at hknown
      cases hknown
    | some pblockindex =>
      have hknown : KnownCoin env prevout txPrev pblockindex := ⟨hashBlock, hfound, hblock⟩
      rw [hknown.exists_iff]
      simp only [hblock, htime]
      unfold OldEnough
      split
      · next hyoung =>
        simp only [pure, Except.pure, Except.ok.injEq, Bool.false_eq_true, false_iff]
        omega
      · next hold =>
        have hle : pblockindex.nTime.toNat + env.consensus.nStakeMinAge.toNat ≤ nTime.toNat := by omega
        cases hwallet : inWallet prevout.hash with
        | false => simp [hle, pure, Except.pure]
        | true =>
          simp only [hle, Bool.not_true, Bool.false_eq_true, if_false, true_and, forall_const]
          unfold KernelPasses
          cases checkStakeKernelHash env pindexPrev nBits pblockindex.nTime txPrev prevout nTime with
          | error e => simp [bind, Except.bind]
          | ok proof => simp [bind, Except.bind, pure, Except.pure, Option.isSome_iff_exists]

variable {chain : PrevChain} {tx : CTransaction} {txin : CTxIn} {src : TxSources}
  (hsrc : env.getTransaction = src.getTransaction env.hash256 env.hash9)
  (hstake : tx.isCoinStake = true) (hvin : tx.vin.head? = some txin)
  (hprev : chain.head? = some pindexPrev)
include hsrc hstake hvin hprev

/-- The validator's answer for a coinstake. -/
theorem checkProofOfStake_eq_some_iff :
    (∃ hash, checkProofOfStake env chain tx nBits = .ok (some hash)) ↔
      ∃ txPrev pblockindex, KnownCoin env txin.prevout txPrev pblockindex ∧
        KernelPasses env pindexPrev nBits tx.nTime txin.prevout txPrev pblockindex := by
  unfold checkProofOfStake
  rw [hstake, hvin, hprev]
  simp only [Bool.not_true, Bool.false_eq_true, if_false, orAssert, ok_bind]
  cases hfound : env.getTransaction txin.prevout.hash with
  | none =>
    simp only [pure, Except.pure, Except.ok.injEq, reduceCtorEq, exists_false, false_iff]
    rintro ⟨txPrev, pblockindex, ⟨hashBlock, hsome, _⟩, _⟩
    rw [hfound] at hsome
    cases hsome
  | some found =>
    obtain ⟨txPrev, hashBlock⟩ := found
    -- What is found has the hash that was asked for.
    have hhash : env.txHash txPrev = txin.prevout.hash := by
      rw [hsrc] at hfound
      exact TxSources.getTransaction_hash hfound
    cases hblock : env.mapBlockIndex hashBlock with
    | none =>
      simp only [hblock, pure, Except.pure, Except.ok.injEq, reduceCtorEq, exists_false, false_iff]
      rintro ⟨txPrev', pblockindex, ⟨hashBlock', hsome, hknown⟩, _⟩
      cases hfound.symm.trans hsome
      rw [hblock] at hknown
      cases hknown
    | some pblockindex =>
      have hknown : KnownCoin env txin.prevout txPrev pblockindex := ⟨hashBlock, hfound, hblock⟩
      rw [hknown.exists_iff]
      simp only [hblock, hhash, ne_eq, not_true, if_false]
      rfl

/-- **Staker and validator** agree on a kernel exactly if it passes wherever the coin is old enough
and not in the wallet, and the coin is old enough wherever it passes. -/
theorem checkKernel_agrees_iff :
    (checkKernel env inWallet pindexPrev nBits tx.nTime.toNat txin.prevout = .ok true ↔
        ∃ hash, checkProofOfStake env chain tx nBits = .ok (some hash)) ↔
      ∀ txPrev pblockindex, KnownCoin env txin.prevout txPrev pblockindex →
        (OldEnough env tx.nTime pblockindex → inWallet txin.prevout.hash = false →
          KernelPasses env pindexPrev nBits tx.nTime txin.prevout txPrev pblockindex) ∧
        (KernelPasses env pindexPrev nBits tx.nTime txin.prevout txPrev pblockindex →
          OldEnough env tx.nTime pblockindex) := by
  rw [checkKernel_eq_true_iff, checkProofOfStake_eq_some_iff hsrc hstake hvin hprev]
  constructor
  · intro hagree txPrev pblockindex hfound
    refine ⟨?_, ?_⟩
    · intro hold hwallet
      obtain ⟨txPrev', pblockindex', hfound', hpasses⟩ :=
        hagree.mp ⟨txPrev, pblockindex, hfound, hold, fun hin => by rw [hwallet] at hin; cases hin⟩
      obtain ⟨rfl, rfl⟩ := KnownCoin.unique hfound hfound'
      exact hpasses
    · intro hpasses
      obtain ⟨txPrev', pblockindex', hfound', hold, _⟩ :=
        hagree.mpr ⟨txPrev, pblockindex, hfound, hpasses⟩
      obtain ⟨rfl, rfl⟩ := KnownCoin.unique hfound hfound'
      exact hold
  · intro hboth
    constructor
    · rintro ⟨txPrev, pblockindex, hfound, hold, hpasses⟩
      refine ⟨txPrev, pblockindex, hfound, ?_⟩
      cases hwallet : inWallet txin.prevout.hash with
      | true => exact hpasses hwallet
      | false => exact (hboth txPrev pblockindex hfound).1 hold hwallet
    · rintro ⟨txPrev, pblockindex, hfound, hpasses⟩
      exact ⟨txPrev, pblockindex, hfound, (hboth txPrev pblockindex hfound).2 hpasses, fun _ => hpasses⟩

end

/-! ## A coin that is not the wallet's -/

/-- The funding transaction is in the block at height 1. -/
def kernelSources : TxSources where
  mempool := []
  fTxIndex := false
  readTxIndex := fun _ => none
  accessCoins := fun txid => if txid = fundingHash then some (.fromTx sampleFunding 1) else none
  chainActive := fun n =>
    if n = 1 then some ((sampleIndex 1).hash, some {
      nVersion := 1
      hashPrevBlock := (sampleIndex 0).hash
      hashMerkleRoot := 0
      nTime := (sampleIndex 1).nTime
      nBits := 0
      nNonce := 0
      vtx := [sampleFunding]
      vchBlockSig := [] })
    else none

def kernelEnv : Env :=
  { sampleEnv 101 with getTransaction := kernelSources.getTransaction sampleHash sampleHash }

/-- Five hours after the funding transaction. -/
def kernelStake : CTransaction := sampleStake 0 1532379000 [1] (1000 * COIN)

theorem kernelStake_known : KnownCoin kernelEnv ⟨fundingHash, 0⟩ sampleFunding (sampleIndex 1) :=
  ⟨(sampleIndex 1).hash, by decide +kernel, by decide +kernel⟩

/-- With the coin in the wallet and a target that is easily met, both accept it. -/
theorem checkKernel_agrees_in_wallet :
    checkKernel kernelEnv (fun _ => true) (sampleIndex 100) 0x1f00ffff kernelStake.nTime.toNat
        ⟨fundingHash, 0⟩ = .ok true ↔
      ∃ hash, checkProofOfStake kernelEnv [sampleIndex 100] kernelStake 0x1f00ffff =
        .ok (some hash) := by
  have hsrc :
    kernelEnv.getTransaction = kernelSources.getTransaction kernelEnv.hash256 kernelEnv.hash9 := rfl
  have hstake : kernelStake.isCoinStake = true := by decide +kernel
  have hvin : kernelStake.vin.head? = some ⟨⟨fundingHash, 0⟩, [1], 0xffffffff⟩ := rfl
  refine (checkKernel_agrees_iff hsrc hstake hvin List.head?_cons).mpr ?_
  intro txPrev pblockindex hknown
  obtain ⟨rfl, rfl⟩ := kernelStake_known.unique hknown
  refine ⟨fun _ hwallet => (by cases hwallet), fun _ => ?_⟩
  unfold OldEnough
  decide +kernel

/-- With the coin in no wallet and a target of zero, the staker is told to go on. -/
theorem kernel_accepted_without_wallet :
    checkKernel kernelEnv (fun _ => false) (sampleIndex 100) 0 kernelStake.nTime.toNat
        ⟨fundingHash, 0⟩ = .ok true ∧ kernelStake.isCoinStake = true ∧
      checkProofOfStake kernelEnv [sampleIndex 100] kernelStake 0 = .ok none := by
  decide +kernel

end Chratos
