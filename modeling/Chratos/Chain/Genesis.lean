import Chratos.Chain.Receive

/-!
# Chratos — the first block

`InitBlockIndex` adds genesis to an empty index and makes it the tip. The other calls start from what
it leaves (`initBlockIndex_spec`).
-/

namespace Chratos

open List Option BlockTree

namespace BlockTree

variable {ι : Type} [LinearOrder ι] {v : Validator ι} {s : BlockTree ι} {t : ι}

/-- An index that holds one block, with its data, and has no active chain. -/
structure Alone (s : BlockTree ι) (g : ι) : Prop where
  mapBlockIndex : s.mapBlockIndex = [g]
  pprev : s.pprev g = none
  nHeight : s.nHeight g = 0
  vChain : s.vChain = []
  candidates : s.setBlockIndexCandidates = [g]
  unlinked : s.mapBlocksUnlinked = []
  nTx : s.nTx g ≠ 0
  nChainTx : s.nChainTx g ≠ 0
  nStatus : s.nStatus g = { valid := .transactions, haveData := true }

namespace Alone

variable {g : ι} (h : s.Alone g)

include h

omit [LinearOrder ι] in
theorem lineage : s.lineage g = [g] := by
  unfold HeaderTree.lineage Lineage.lineage
  rw [h.nHeight]
  rfl

omit [LinearOrder ι] in
theorem tip : s.tip = none := by
  unfold BlockTree.tip
  rw [h.vChain]
  rfl

theorem contains : s.contains g = false := by
  unfold BlockTree.contains
  rw [h.vChain]
  rfl

omit [LinearOrder ι] in
theorem getAncestor : s.getAncestor g 0 = some g := by
  unfold HeaderTree.getAncestor
  rw [h.nHeight]
  rfl

theorem findMostWorkChain : BlockTree.findMostWorkChain 2 s = .ok (s, some g) := by
  have hbest : s.bestCandidate = some g := by
    unfold bestCandidate
    rw [h.candidates, argmax_singleton]
  have hoff : s.offChain g = [g] := by
    unfold offChain
    rw [h.lineage, takeWhile_cons_of_pos (by rw [h.contains]; rfl), takeWhile_nil]
  have husable : s.unusable g = false := by
    unfold unusable
    rw [h.nStatus]
    rfl
  unfold BlockTree.findMostWorkChain
  rw [hbest]
  dsimp only
  rw [hoff, find?_cons_of_neg (by rw [husable]; decide), find?_nil]
  exact if_pos fun b hb => .inl (mem_singleton.mp hb ▸ h.nChainTx)

/-- The block becomes the tip. -/
theorem connectTip (hg : v.hashGenesisBlock = g) (hvalid : v.connectBlock g = .valid) :
    s.connectTip v g = .ok (.connected { s with vChain := [g] }) := by
  have hstatus : s.setStatus g (connectedStatus v g) = s := by
    have hsame : connectedStatus v g (s.nStatus g) = s.nStatus g := if_pos hg.symm
    unfold setStatus
    rw [hsame, Function.update_eq_self]
  have hchain : s.rewriteChain 1 g = [g] := by
    rw [rewriteChain, if_neg (by rw [h.contains]; decide), h.pprev]
    rfl
  unfold BlockTree.connectTip
  rw [h.pprev, h.tip, if_neg (not_not.mpr rfl), h.nStatus, hvalid]
  show Except.ok (ConnectResult.connected ((s.setStatus g (connectedStatus v g)).setTip (some g))) = _
  rw [hstatus]
  unfold setTip
  rw [elim_some, h.nHeight, hchain]

theorem prune :
    BlockTree.pruneBlockIndexCandidates { s with vChain := [g] } = .ok { s with vChain := [g] } := by
  have hkeep : notWorseThanTip { s with vChain := [g] } g = true := by
    show (!s.worse g g) = true
    rw [Bool.not_eq_true', BlockIndex.worse_eq_false_iff]
  have hfilter : s.setBlockIndexCandidates.filter (notWorseThanTip { s with vChain := [g] }) =
      s.setBlockIndexCandidates := by
    refine filter_eq_self.mpr fun c hc => ?_
    rw [h.candidates] at hc
    exact mem_singleton.mp hc ▸ hkeep
  unfold pruneBlockIndexCandidates
  rw [hfilter, if_neg (by rw [h.candidates]; exact cons_ne_nil _ _)]

theorem activateBestChain (hg : v.hashGenesisBlock = g) (hvalid : v.connectBlock g = .valid) :
    s.activateBestChain v = .ok { s with vChain := [g] } := by
  have hblocks : s.toConnect g 0 1 = [g] := by
    unfold toConnect
    rw [show s.getAncestor g (1 - 1) = some g from h.getAncestor, elim_some, h.lineage]
    rfl
  have hconnect : connectBlocks v none g [g] s = .ok ({ s with vChain := [g] }, .better) := by
    unfold connectBlocks
    rw [h.connectTip hg hvalid]
    show (pruneBlockIndexCandidates { s with vChain := [g] } >>= _) = _
    rw [h.prune]
    rfl
  have hstep : activateBestChainStep v g s = .ok ({ s with vChain := [g] }, false) := by
    have hloop : connectLoop v none g 1 0 s = .ok ({ s with vChain := [g] }, .better) := by
      unfold connectLoop
      rw [if_neg (by rw [h.nHeight]; decide), h.nHeight]
      show (connectBlocks v none ((s.toConnect g 0 1).headD g) (s.toConnect g 0 1) s >>= _) = _
      rw [hblocks]
      show (connectBlocks v none g [g] s >>= _) = _
      rw [hconnect]
      rfl
    unfold activateBestChainStep findFork
    rw [if_pos h.vChain, h.tip, h.vChain, h.nHeight]
    show (disconnectTo none 1 s >>= _) = _
    unfold disconnectTo
    rw [if_pos (.inl h.tip)]
    show (connectLoop v none g 1 0 s >>= _) = _
    rw [hloop]
    rfl
  have hrounds : (s.mapBlockIndex.length + 1) * (s.mapBlockIndex.length + 2) = 5 + 1 := by
    rw [h.mapBlockIndex]
    rfl
  have hmost : s.mostWork none = .ok (s, some g) := by
    unfold mostWork
    rw [h.candidates]
    exact h.findMostWorkChain
  unfold BlockTree.activateBestChain
  rw [hrounds, activateLoop_succ hmost, h.tip, if_neg (some_ne_none g).symm, hstep]
  exact if_pos rfl

/-- The bookkeeping of a tree that consists of its tip. -/
theorem sound (hg : v.hashGenesisBlock = g) : Sound v { s with vChain := [g] } g := by
  have hmem : ∀ b ∈ s.mapBlockIndex, b = g := fun b hb => by
    rw [h.mapBlockIndex] at hb
    exact mem_singleton.mp hb
  have hgm : g ∈ s.mapBlockIndex := h.mapBlockIndex ▸ mem_singleton_self g
  have hanc : ∀ b, s.Anc b g → b = g := fun b hb => (Lineage.anc_iff_of_none h.pprev).mp hb
  have hroot : ∀ b ∈ s.mapBlockIndex, ∀ p, s.pprev b ≠ some p := fun b hb p hp => by
    rw [hmem b hb, h.pprev] at hp
    cases hp
  have hdata : s.HasData g := by
    unfold BlockIndex.HasData
    rw [h.nStatus]
  have hfailed : ¬ s.Failed g := by
    unfold BlockIndex.Failed
    rw [h.nStatus]
    exact Bool.false_ne_true
  have hnone : ∀ e, e ∉ s.mapBlocksUnlinked := fun e he => by
    rw [h.unlinked] at he
    cases he
  subst hg
  refine ⟨⟨⟨⟨hgm, h.pprev, h.nHeight, fun b hb hne => absurd (hmem b hb) hne⟩, ?_,
    fun b hb hne => absurd (hmem b hb) hne, fun b hb p hp => absurd hp (hroot b hb p)⟩, ?_,
    fun _ b hb _ => hmem b hb ▸ hdata, ?_, ⟨hgm, ?_⟩, fun b hb => ?_, h.nChainTx, ?_, le_rfl⟩, ?_⟩
  · show s.mapBlockIndex.Nodup
    rw [h.mapBlockIndex]
    exact nodup_singleton _
  · refine ⟨fun b hb => ?_, fun b hb => ?_, fun b hb p hp => absurd hp (hroot b hb p),
      fun b hb _ => hmem b hb ▸ hdata, fun b hb _ => hmem b hb ▸ h.nTx,
      fun b hb _ => ⟨hmem b hb ▸ h.nTx, fun p hp => absurd hp (hroot b hb p)⟩,
      fun b hb hnot => absurd (hmem b hb ▸ h.nChainTx) hnot, fun b hb hf => ?_⟩
    · rw [hmem b hb, h.nStatus]
      decide
    · rw [hmem b hb, h.nStatus]
      exact iff_of_true le_rfl h.nTx
    · exact absurd (hmem b hb ▸ hf) hfailed
  · exact ⟨fun e he => absurd he (hnone e), fun e he => absurd he (hnone e),
      fun e he => absurd he (hnone e), fun b hb _ _ => .inl (hmem b hb ▸ h.nChainTx)⟩
  · show [_] = (s.lineage _).reverse
    rw [h.lineage]
    rfl
  · rw [hanc b hb]
    exact ⟨hfailed, fun hne => absurd rfl hne, fun hne => absurd rfl hne⟩
  · have hcand : v.hashGenesisBlock ∈ s.setBlockIndexCandidates :=
      h.candidates ▸ mem_singleton_self _
    refine ⟨fun c hc => ?_, hcand, fun a ha hoff => absurd ha hoff, fun b hb _ _ _ _ =>
      .inl (hmem b hb ▸ hcand)⟩
    rw [show s.setBlockIndexCandidates = _ from h.candidates] at hc
    obtain rfl := mem_singleton.mp hc
    exact ⟨hgm, h.nChainTx, le_rfl⟩
  · refine ⟨fun b _ => ?_, fun b hb _ hnot => absurd (hmem b hb ▸ h.nChainTx) hnot⟩
    rw [h.unlinked]
    exact Nat.zero_le 1

end Alone

theorem alone_init (v : Validator ι) (nBits : UInt32) {nVtx : Nat} (hpos : 0 < nVtx)
    (hsmall : nVtx < 2 ^ 32) : ((({} : BlockTree ι).addToBlockIndex
      ⟨v.hashGenesisBlock, none, nBits⟩).receivedBlockTransactions v.hashGenesisBlock nVtx 0).Alone
        v.hashGenesisBlock := by
  constructor
  all_goals
    simp [addToBlockIndex, receivedBlockTransactions, receiveData, linkQueue, linkBlock, eraseRange,
      notWorseThanTip, tip]
  · omega
  · omega
  · rfl

/-- From an empty index the call returns true, with genesis as the tip. -/
theorem initBlockIndex_spec {nBits : UInt32} {nVtx : Nat}
    (hvalid : v.connectBlock v.hashGenesisBlock = .valid) (hpos : 0 < nVtx) (hsmall : nVtx < 2 ^ 32) :
    ∃ s, initBlockIndex v nBits nVtx = .ok s ∧ Sound v s v.hashGenesisBlock := by
  have halone := alone_init v nBits hpos hsmall
  exact ⟨_, halone.activateBestChain rfl hvalid, halone.sound rfl⟩

end BlockTree

end Chratos
