import Chratos.Properties.WalletSpends

/-!
# Chratos — the outputs in a balance of the past

`GetDividendBalanceAt` counts the outputs of the wallet's transactions in blocks up to a height,
without those that `IsSpentAt` finds spent at that height. A spend is found by its depth: in a chain
of height `T`, a transaction in block `k` is `T - k + 1` deep, and it is compared with `T - H`. So
it counts if `k ≤ H + 1` (`Synced.isSpentAt_iff`): a spend in the block after the queried one is
already seen.
-/

namespace Chratos.Wallet

open Chratos.Wallet.CWallet List

variable {env : WalletEnv} {blocks : List CBlock} {chain : CChain} {w : CWallet} {k height : Nat}
  {block : CBlock}

/-- A transaction of the block spends the output. -/
def SpentIn (block : CBlock) (o : COutPoint) : Prop :=
  ∃ tx ∈ block.vtx, tx.isCoinBase = false ∧ ∃ txin ∈ tx.vin, txin.prevout = o

/-- An output of a wallet transaction that belongs to the wallet. -/
def Owns (env : WalletEnv) (w : CWallet) (o : COutPoint) (wtx : CWalletTx) : Prop :=
  w.mapWallet o.hash = some wtx ∧ ∃ out, wtx.tx.vout[o.n.toNat]? = some out ∧ env.isMine out = true

section

variable (env : WalletEnv) (blocks : List CBlock) (chain : CChain) (w : CWallet)

/-- The wallet of a node whose active chain has the given blocks. Its transactions are all
confirmed, it has every transaction of the chain that spends from it, and it keeps the spends of its
transactions. -/
structure Synced : Prop where
  chain_eq : chain.vChain = blocks.map env.blockHash
  nodup : chain.vChain.Nodup
  length_le : blocks.length ≤ 2 ^ 31
  once : ∀ {j k : Nat} {a b : CBlock} {tx : CTransaction}, blocks[j]? = some a →
    blocks[k]? = some b → tx ∈ a.vtx → tx ∈ b.vtx → j = k
  recorded : w.Recorded
  sound : w.Sound
  confirmed : ∀ {h : Uint256} {wtx : CWalletTx}, w.mapWallet h = some wtx → wtx.nIndex ≠ -1 ∧
    ∃ (k : Nat) (block : CBlock), blocks[k]? = some block ∧ wtx.hashBlock = env.blockHash block ∧
      wtx.tx ∈ block.vtx
  complete : ∀ {k : Nat} {block : CBlock} {tx : CTransaction} {txin : CTxIn} {wtx : CWalletTx},
    blocks[k]? = some block → tx ∈ block.vtx → tx.isCoinBase = false → txin ∈ tx.vin →
    Owns env w txin.prevout wtx → ∃ h wtx', w.mapWallet h = some wtx' ∧ wtx'.tx = tx

/-- Counted in the balance at a height: the block is not above it, and the output is not found spent. -/
def Counted (height : Nat) (o : COutPoint) : Prop :=
  ∃ wtx, Owns env w o wtx ∧ (∃ k ≤ height, chain.vChain[k]? = some wtx.hashBlock) ∧
    w.isSpentAt chain o height = false

/-- In the wallet's part of the coins at a height: created and not spent up to it. -/
def UnspentAt (height : Nat) (o : COutPoint) : Prop :=
  ∃ wtx, Owns env w o wtx ∧ (∃ k ≤ height, ∃ block, blocks[k]? = some block ∧ wtx.tx ∈ block.vtx) ∧
    ∀ k ≤ height, ∀ block, blocks[k]? = some block → ¬ SpentIn block o

end

namespace Synced

variable (h : Synced env blocks chain w)
include h

theorem vChain_getElem? (hk : blocks[k]? = some block) :
    chain.vChain[k]? = some (env.blockHash block) := by
  rw [h.chain_eq, getElem?_map, hk]
  rfl

variable {wtx : CWalletTx} {hash : Uint256}

/-- The block of a wallet transaction, by its place in the chain. -/
theorem hashBlock_of_mem (hwtx : w.mapWallet hash = some wtx) (hk : blocks[k]? = some block)
    (hmem : wtx.tx ∈ block.vtx) : chain.vChain[k]? = some wtx.hashBlock := by
  obtain ⟨_, k', block', hk', hhash, hmem'⟩ := h.confirmed hwtx
  have hsame : k = k' := h.once hk hk' hmem hmem'
  rw [hsame, h.vChain_getElem? hk', hhash]

/-- The depth of a transaction in block `k`. -/
theorem getDepthInMainChain_eq (hwtx : w.mapWallet hash = some wtx)
    (hk : chain.vChain[k]? = some wtx.hashBlock) :
    wtx.getDepthInMainChain chain = blocks.length - k := by
  obtain ⟨hindex, _⟩ := h.confirmed hwtx
  obtain ⟨hnonzero, hnotAbandoned⟩ := chain.named _ (mem_of_getElem? hk)
  have hset : wtx.hashUnset = false := by
    apply decide_eq_false
    rintro (hzero | habandoned)
    · exact hnonzero hzero
    · exact hnotAbandoned habandoned
  obtain ⟨hlt, hget⟩ := List.getElem?_eq_some_iff.mp hk
  have hidx : chain.vChain.idxOf? wtx.hashBlock = some k := by
    refine idxOf?_eq_some_iff.mpr ⟨hlt, hget, ?_⟩
    intro j hj heq
    have hjk : j = k := h.nodup.getElem_inj_iff.mp (heq.trans hget.symm)
    omega
  have hlength : chain.vChain.length = blocks.length := by
    rw [h.chain_eq, length_map]
  unfold CWalletTx.getDepthInMainChain CChain.confirmations
  rw [hset, hidx, if_neg Bool.false_ne_true, if_neg hindex]
  simp only [hlength]
  omega

/-- The difference of the heights, as the code takes it. -/
theorem spendDepth_eq (hheight : height < blocks.length) :
    ((chain.vChain.length : Int) - 1 - height).bmod (2 ^ 32) = blocks.length - 1 - height := by
  have hle := h.length_le
  rw [h.chain_eq, length_map, Int.bmod_def]
  split <;> omega

/-- **`IsSpentAt`** sees the spends up to the block after the queried one. -/
theorem isSpentAt_iff {o : COutPoint} (howns : Owns env w o wtx) (hheight : height < blocks.length) :
    w.isSpentAt chain o height = true ↔
      ∃ k ≤ height + 1, ∃ block, blocks[k]? = some block ∧ SpentIn block o := by
  have hspendDepth := h.spendDepth_eq hheight
  unfold isSpentAt
  rw [any_eq_true]
  constructor
  · rintro ⟨wtxid, hentry, hdepth⟩
    obtain ⟨tx, htx, hcb, txin, hin, hprevout⟩ := h.sound o wtxid (TxSpends.mem_equalRange.mp hentry)
    obtain ⟨spender, hspender, rfl⟩ := Option.map_eq_some_iff.mp htx
    obtain ⟨_, k, block, hk, hhash, hmem⟩ := h.confirmed hspender
    -- The depth of the spender tells its block.
    have hdepthEq := h.getDepthInMainChain_eq hspender (hhash ▸ h.vChain_getElem? hk)
    rw [hspender] at hdepth
    simp only [hspendDepth, hdepthEq, decide_eq_true_eq] at hdepth
    exact ⟨k, by omega, block, hk, spender.tx, hmem, hcb, txin, hin, hprevout⟩
  · rintro ⟨k, hle, block, hk, tx, hmem, hcb, txin, hin, rfl⟩
    obtain ⟨wtxid, spender, hspender, rfl⟩ := h.complete hk hmem hcb hin howns
    have hdepthEq := h.getDepthInMainChain_eq hspender (h.hashBlock_of_mem hspender hk hmem)
    refine ⟨wtxid,
      TxSpends.mem_equalRange.mpr (h.recorded wtxid spender.tx (txs_eq hspender) hcb txin hin), ?_⟩
    rw [hspender]
    simp only [hspendDepth, hdepthEq, decide_eq_true_eq]
    omega

/-- The block of an output is not above a height, by the wallet's record and by the chain. -/
theorem created_iff (hwtx : w.mapWallet hash = some wtx) :
    (∃ k ≤ height, chain.vChain[k]? = some wtx.hashBlock) ↔
      ∃ k ≤ height, ∃ block, blocks[k]? = some block ∧ wtx.tx ∈ block.vtx := by
  constructor
  · rintro ⟨k, hle, hk⟩
    obtain ⟨_, k', block, hk', hhash, hmem⟩ := h.confirmed hwtx
    -- The blocks of the chain have different hashes.
    obtain ⟨hlt, hget⟩ := List.getElem?_eq_some_iff.mp hk
    obtain ⟨hlt', hget'⟩ := List.getElem?_eq_some_iff.mp (h.vChain_getElem? hk')
    have hsame : k = k' := h.nodup.getElem_inj_iff.mp (hget.trans (hhash.trans hget'.symm))
    exact ⟨k', by omega, block, hk', hmem⟩
  · rintro ⟨k, hle, block, hk, hmem⟩
    exact ⟨k, hle, h.hashBlock_of_mem hwtx hk hmem⟩

/-- **What is counted**: the outputs unspent at the height, without those the next block spends. -/
theorem counted_iff (hheight : height < blocks.length) (o : COutPoint) :
    Counted env chain w height o ↔
      UnspentAt env blocks w height o ∧ ∀ block, blocks[height + 1]? = some block →
        ¬ SpentIn block o := by
  constructor
  · rintro ⟨wtx, howns, hcreated, hspent⟩
    have hnever : ∀ k ≤ height + 1, ∀ block, blocks[k]? = some block → ¬ SpentIn block o := by
      intro k hle block hk hin
      have htrue := (h.isSpentAt_iff howns hheight).mpr ⟨k, hle, block, hk, hin⟩
      rw [hspent] at htrue
      cases htrue
    refine ⟨⟨wtx, howns, (h.created_iff howns.1).mp hcreated, ?_⟩, hnever (height + 1) le_rfl⟩
    intro k hle
    exact hnever k (by omega)
  · rintro ⟨⟨wtx, howns, hcreated, hunspent⟩, hnext⟩
    refine ⟨wtx, howns, (h.created_iff howns.1).mpr hcreated, ?_⟩
    rw [← Bool.not_eq_true, h.isSpentAt_iff howns hheight]
    rintro ⟨k, hle, block, hk, hin⟩
    cases lt_or_eq_of_le hle with
    | inl hlt => exact hunspent k (by omega) block hk hin
    | inr heq =>
      subst heq
      exact hnext block hk hin

end Synced

/-- **Balances of the past.** The outputs counted at a height are the wallet's unspent outputs of
that height exactly if the next block spends none of these. -/
theorem counted_eq_unspent_iff (h : Synced env blocks chain w) (hheight : height < blocks.length) :
    (∀ o, Counted env chain w height o ↔ UnspentAt env blocks w height o) ↔
      ∀ o, UnspentAt env blocks w height o → ∀ block, blocks[height + 1]? = some block →
        ¬ SpentIn block o := by
  constructor
  · intro hsame o hunspent
    exact ((h.counted_iff hheight o).mp ((hsame o).mpr hunspent)).2
  · intro hnext o
    rw [h.counted_iff hheight]
    exact ⟨fun hcounted => hcounted.1, fun hunspent => ⟨hunspent, hnext o hunspent⟩⟩

/-! ## A coin that is staked in the next block -/

def twoBlocks : List CBlock := [clockBlock 201 [receipt], clockBlock 202 [ownStake]]

theorem mem_twoBlocks {tx : CTransaction} (hk : twoBlocks[k]? = some block)
    (hmem : tx ∈ block.vtx) : k = 0 ∧ tx = receipt ∨ k = 1 ∧ tx = ownStake := by
  cases k with
  | zero =>
    obtain rfl := Option.some.inj hk
    exact .inl ⟨rfl, mem_singleton.mp hmem⟩
  | succ k =>
    cases k with
    | zero =>
      obtain rfl := Option.some.inj hk
      exact .inr ⟨rfl, mem_singleton.mp hmem⟩
    | succ k => cases hk

/-- The wallet after the two blocks. -/
theorem exists_synced_wallet : ∃ w, Synced clockEnv twoBlocks longChain w ∧
    w.isSpentAt longChain ⟨101, 0⟩ 0 = true ∧
      (w.mapWallet 101).any (fun wtx => wtx.tx = receipt) = true := by
  have hpass : passes (fun w => w.isSpentAt longChain ⟨101, 0⟩ 0 &&
      ((w.mapWallet 101).any fun wtx => wtx.tx = receipt ∧ wtx.nIndex = 0 ∧ wtx.hashBlock = 201) &&
      ((w.mapWallet 102).any fun wtx => wtx.tx = ownStake ∧ wtx.nIndex = 0 ∧ wtx.hashBlock = 202))
      (runCalls clockEnv CWallet.empty [connectReceipt, connectStake]) = true := by decide +kernel
  obtain ⟨w, hrun, htest⟩ := exists_of_passes hpass
  obtain ⟨htest, hstake⟩ := Bool.and_eq_true_iff.mp htest
  obtain ⟨hspent, hreceipt⟩ := Bool.and_eq_true_iff.mp htest
  obtain ⟨wtx₁, hwtx₁, h₁⟩ := exists_of_any hreceipt
  obtain ⟨wtx₂, hwtx₂, h₂⟩ := exists_of_any hstake
  obtain ⟨htx₁, hindex₁, hhash₁⟩ := of_decide_eq_true h₁
  obtain ⟨htx₂, hindex₂, hhash₂⟩ := of_decide_eq_true h₂
  -- The wallet has the two transactions and no other.
  have honly : ∀ {hash wtx}, w.mapWallet hash = some wtx → wtx = wtx₁ ∨ wtx = wtx₂ := by
    intro hash wtx hwtx
    cases txs_of_runCalls hrun (txs_eq hwtx) with
    | inl hempty => cases hempty
    | inr hcall =>
      obtain ⟨call, hmem, hhash, _⟩ := hcall
      cases mem_pair.mp hmem with
      | inl heq =>
        subst heq
        subst hhash
        exact .inl (Option.some.inj (hwtx.symm.trans hwtx₁))
      | inr heq =>
        subst heq
        subst hhash
        exact .inr (Option.some.inj (hwtx.symm.trans hwtx₂))
  refine ⟨w, ?_, hspent, ?_⟩
  · refine
      { chain_eq := rfl
        nodup := by decide
        length_le := by decide
        once := ?_
        recorded := ?_
        sound := sound_runCalls sound_empty hrun
        confirmed := ?_
        complete := ?_ }
    · intro j k a b tx hj hk ha hb
      have hne : receipt ≠ ownStake := by decide
      cases mem_twoBlocks hj ha with
      | inl hfirst =>
        cases mem_twoBlocks hk hb with
        | inl hfirst' => rw [hfirst.1, hfirst'.1]
        | inr hsecond => exact absurd (hfirst.2.symm.trans hsecond.2) hne
      | inr hsecond =>
        cases mem_twoBlocks hk hb with
        | inl hfirst => exact absurd (hfirst.2.symm.trans hsecond.2) hne
        | inr hsecond' => rw [hsecond.1, hsecond'.1]
    · exact recorded_of_connects recorded_empty hrun (by decide)
    · intro hash wtx hwtx
      cases honly hwtx with
      | inl heq =>
        subst heq
        refine ⟨by rw [hindex₁]; decide, 0, _, rfl, hhash₁, ?_⟩
        rw [htx₁]
        exact mem_singleton_self _
      | inr heq =>
        subst heq
        refine ⟨by rw [hindex₂]; decide, 1, _, rfl, hhash₂, ?_⟩
        rw [htx₂]
        exact mem_singleton_self _
    · intro k block tx txin wtx hk hmem _ _ _
      cases mem_twoBlocks hk hmem with
      | inl hfirst => exact ⟨101, wtx₁, hwtx₁, htx₁.trans hfirst.2.symm⟩
      | inr hsecond => exact ⟨102, wtx₂, hwtx₂, htx₂.trans hsecond.2.symm⟩
  · rw [hwtx₁]
    exact decide_eq_true htx₁

/-- At the tip the balance is right. -/
theorem counted_eq_unspent_at_tip : ∃ w, Synced clockEnv twoBlocks longChain w ∧
    ∀ o, Counted clockEnv longChain w 1 o ↔ UnspentAt clockEnv twoBlocks w 1 o := by
  obtain ⟨w, hsynced, _⟩ := exists_synced_wallet
  refine ⟨w, hsynced, (counted_eq_unspent_iff hsynced (by decide)).mpr ?_⟩
  intro o _ block hblock
  cases hblock

/-- At height 0 the coin that block 1 stakes is unspent, and is not counted. -/
theorem staked_coin_not_counted : ∃ w, Synced clockEnv twoBlocks longChain w ∧
    UnspentAt clockEnv twoBlocks w 0 ⟨101, 0⟩ ∧ ¬ Counted clockEnv longChain w 0 ⟨101, 0⟩ := by
  obtain ⟨w, hsynced, hspent, hreceipt⟩ := exists_synced_wallet
  obtain ⟨wtx, hwtx, htx⟩ := exists_of_any hreceipt
  have htx := of_decide_eq_true htx
  refine ⟨w, hsynced, ⟨wtx, ⟨hwtx, ⟨50, [81]⟩, ?_, rfl⟩, ⟨0, le_rfl, _, rfl, ?_⟩, ?_⟩, ?_⟩
  · rw [htx]
    rfl
  · rw [htx]
    exact mem_singleton_self _
  · -- The block itself spends something else.
    intro k hle block hk hin
    obtain ⟨tx, hmem, _, txin, htxin, hprevout⟩ := hin
    cases mem_twoBlocks hk hmem with
    | inl hfirst =>
      obtain ⟨_, rfl⟩ := hfirst
      rw [mem_singleton.mp htxin] at hprevout
      revert hprevout
      decide
    | inr hsecond => omega
  · rintro ⟨_, _, _, hcounted⟩
    rw [hspent] at hcounted
    cases hcounted

end Chratos.Wallet
