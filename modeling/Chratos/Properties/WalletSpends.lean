import Chratos.Wallet.Marks

/-!
# Chratos — the spends a wallet keeps through reorganisations

A coin is not offered again once a transaction of the wallet in the main chain spends it: `IsSpent`
finds the transaction in `mapTxSpends`. The spends of a transaction are written there when it gets
into the wallet, once. When a coinstake of the wallet is disconnected, all spends of its inputs are
erased. If it is connected again it is still in the wallet, and the spends are not written again.
-/

namespace Chratos.Wallet

open Outcome Worklist Function Option List CTransaction Chratos.Wallet.CWallet TxSpends

namespace CWallet

variable {w w' w₁ : CWallet} {wtx : CWalletTx} {chain : CChain}

/-- The transactions, without what the wallet knows of their blocks. -/
def txs (w : CWallet) (h : Uint256) : Option CTransaction := (w.mapWallet h).map CWalletTx.tx

theorem txs_eq {h : Uint256} (hwtx : w.mapWallet h = some wtx) : w.txs h = some wtx.tx :=
  congrArg (Option.map CWalletTx.tx) hwtx

/-- Every transaction of the wallet that is no coinbase has its spends in `mapTxSpends`. -/
def Recorded (w : CWallet) : Prop :=
  ∀ h tx, w.txs h = some tx → tx.isCoinBase = false → ∀ txin ∈ tx.vin,
    (txin.prevout, h) ∈ w.mapTxSpends.entries

/-- Every entry of `mapTxSpends` is a spend of a transaction of the wallet. -/
def Sound (w : CWallet) : Prop :=
  ∀ o h, (o, h) ∈ w.mapTxSpends.entries →
    ∃ tx, w.txs h = some tx ∧ tx.isCoinBase = false ∧ ∃ txin ∈ tx.vin, txin.prevout = o

/-- What is recorded of a transaction in the main chain makes the coin spent. -/
theorem isSpent_of_recorded (hw : w.Recorded) {h : Uint256}
    (hwtx : w.mapWallet h = some wtx) (hcb : wtx.tx.isCoinBase = false)
    (hdepth : 0 < wtx.getDepthInMainChain chain) {txin : CTxIn} (hin : txin ∈ wtx.tx.vin) :
    w.isSpent chain txin.prevout = true := by
  unfold isSpent
  rw [List.any_eq_true]
  refine ⟨h, mem_equalRange.mpr (hw h wtx.tx (txs_eq hwtx) hcb txin hin), ?_⟩
  rw [hwtx]
  exact decide_eq_true (.inl hdepth)

/-! ## What a call does -/

/-- The same transactions and spends. -/
structure Same (w w' : CWallet) : Prop where
  txs : w'.txs = w.txs
  spends : w'.mapTxSpends = w.mapTxSpends

/-- A transaction came in, with its spends. -/
structure Inserted (env : WalletEnv) (tx : CTransaction) (w w' : CWallet) : Prop where
  fresh : w.txs (env.txHash tx) = none
  txs : w'.txs = update w.txs (env.txHash tx) (some tx)
  spends : ∀ e, e ∈ w'.mapTxSpends.entries ↔ e ∈ w.mapTxSpends.entries ∨
    tx.isCoinBase = false ∧ e.2 = env.txHash tx ∧ ∃ txin ∈ tx.vin, txin.prevout = e.1

variable {env : WalletEnv} {tx : CTransaction}

theorem Same.refl (w : CWallet) : Same w w := ⟨rfl, rfl⟩

theorem Same.trans {w₂ : CWallet} (h : Same w w₁) (h' : Same w₁ w₂) : Same w w₂ :=
  ⟨h'.txs.trans h.txs, h'.spends.trans h.spends⟩

theorem MarkedBy.same {mark : CWalletTx → CWalletTx} {M : Set Uint256} (hM : MarkedBy mark M w w')
    (hmark : ∀ wtx, (mark wtx).tx = wtx.tx) : Same w w' :=
  ⟨funext fun h => hM.map_tx hmark h, hM.spends⟩

theorem txs_set (w : CWallet) (hash : Uint256) (wtx : CWalletTx) :
    (w.set hash wtx).txs = update w.txs hash (some wtx.tx) := by
  funext h
  show (update w.mapWallet hash (some wtx) h).map CWalletTx.tx = _
  by_cases heq : h = hash
  · rw [heq, update_self, update_self]
    rfl
  · rw [update_of_ne heq, update_of_ne heq]
    rfl

theorem addToSpends_eq_ok {wtxid : Uint256} (h : w.addToSpends wtxid = .ok w')
    (htx : w.txs wtxid = some tx) :
    w'.txs = w.txs ∧ ∀ e, e ∈ w'.mapTxSpends.entries ↔ e ∈ w.mapTxSpends.entries ∨
      tx.isCoinBase = false ∧ e.2 = wtxid ∧ ∃ txin ∈ tx.vin, txin.prevout = e.1 := by
  unfold addToSpends at h
  split at h
  · next hknown =>
    have hthis : ((w.mapWallet wtxid).get hknown).tx = tx := by
      obtain ⟨wtx, hwtx⟩ := isSome_iff_exists.mp hknown
      rw [txs, hwtx] at htx
      rw [get_of_eq_some hknown hwtx]
      exact some.inj htx
    dsimp only at h
    rw [hthis] at h
    split at h
    · next hcb =>
      cases h
      rw [hcb]
      simp
    · next hcb =>
      cases h
      refine ⟨rfl, fun e => ?_⟩
      rw [Bool.not_eq_true] at hcb
      show e ∈ (w.mapTxSpends.insertAll tx.vin wtxid).entries ↔ _
      rw [mem_insertAll, hcb]
      simp
  · cases h

theorem addToWallet_cases {wtxIn : CWalletTx} (h : w.addToWallet env wtxIn = .ok w') :
    Same w w' ∨ Inserted env wtxIn.tx w w' := by
  unfold addToWallet at h
  dsimp only at h
  split at h
  · next hnone =>
    have hfresh : w.txs (env.txHash wtxIn.tx) = none := by
      unfold txs
      rw [hnone]
      rfl
    have hset := w.txs_set (env.txHash wtxIn.tx) wtxIn
    have htx : (w.set (env.txHash wtxIn.tx) wtxIn).txs (env.txHash wtxIn.tx) = some wtxIn.tx := by
      rw [hset, update_self]
    obtain ⟨htxs, hspends⟩ := addToSpends_eq_ok h htx
    exact .inr ⟨hfresh, htxs.trans hset, hspends⟩
  · next wtx hwtx =>
    cases h
    refine .inl ⟨?_, rfl⟩
    -- the merge changes the block and the index only
    rw [txs_set]
    split_ifs <;> exact update_eq_self_iff.mpr (txs_eq hwtx).symm

variable {hashTx : Uint256} {b : Bool} {pblock : Option CBlock}

theorem markConflicted_same {hashBlock : Uint256}
    (h : w.markConflicted chain hashBlock hashTx = .ok w') : Same w w' := by
  by_cases hblock : hashBlock ∈ chain.vChain
  · exact (markConflicted_spec h hblock).same fun _ => rfl
  · -- a block that is not in the chain has no confirmations
    have hzero : chain.confirmations hashBlock = 0 := by
      by_contra hne
      exact hblock (CChain.mem_of_confirmations hne)
    unfold markConflicted at h
    rw [hzero] at h
    cases h
    exact .refl w

theorem abandonTransaction_same {inMempool : Uint256 → Bool}
    (h : w.abandonTransaction chain inMempool hashTx = .ok (b, w')) : Same w w' := by
  cases b with
  | true => exact (abandonTransaction_spec h).same fun _ => rfl
  | false =>
    rw [abandonTransaction_refuses h]
    exact .refl w

theorem markSpenders_same (h : w.markSpenders env chain tx pblock = .ok w') : Same w w' := by
  cases pblock with
  | none =>
    cases h
    exact .refl w
  | some block =>
    refine foldlM_ok_rec (fun _ w' => Same w w') ?_ (.refl w) h
    intro _ txin w₁ w₂ hsame hinner
    refine foldlM_ok_rec (fun _ w' => Same w w') ?_ hsame hinner
    intro _ wtxid w₃ w₄ hsame' hmark
    split at hmark
    · exact hsame'.trans (markConflicted_same hmark)
    · cases hmark
      exact hsame'

theorem newWalletTx_tx (env : WalletEnv) (tx : CTransaction) (pblock : Option CBlock) :
    (newWalletTx env tx pblock).tx = tx := by
  cases pblock <;> rfl

theorem addToWalletIfInvolvingMe_cases {fUpdate : Bool}
    (h : w.addToWalletIfInvolvingMe env chain tx pblock fUpdate = .ok (b, w')) :
    Same w w' ∨ Inserted env tx w w' := by
  obtain ⟨w₁, hmarks, h⟩ := bind_eq_ok.mp h
  have hsame := markSpenders_same hmarks
  split at h
  · cases h
    exact .inl hsame
  · obtain ⟨involved, -, h⟩ := bind_eq_ok.mp h
    split at h
    · obtain ⟨w₂, hadd, hw₂⟩ := bind_eq_ok.mp h
      cases hw₂
      rcases addToWallet_cases hadd with hadd | hadd
      · exact .inl (hsame.trans hadd)
      · rw [newWalletTx_tx] at hadd
        refine .inr ⟨?_, ?_, ?_⟩
        · rw [← hsame.txs]
          exact hadd.fresh
        · rw [← hsame.txs]
          exact hadd.txs
        · rw [← hsame.spends]
          exact hadd.spends
    · cases h
      exact .inl hsame

end CWallet

/-! ## Calls -/

/-- A call of `SyncTransaction`, with the chain and the mempool at that time. -/
structure SyncCall where
  chain : CChain
  inMempool : Uint256 → Bool
  tx : CTransaction
  pblock : Option CBlock
  fConnect : Bool

namespace SyncCall

def run (env : WalletEnv) (w : CWallet) (call : SyncCall) : WalletResult CWallet :=
  w.syncTransaction env call.chain call.inMempool call.tx call.pblock call.fConnect

/-- The call disconnects a coinstake that spends from the wallet. -/
def Refunds (env : WalletEnv) (w : CWallet) (call : SyncCall) : Prop :=
  ∃ b w₁, w.addToWalletIfInvolvingMe env call.chain call.tx call.pblock true = .ok (b, w₁) ∧
    w₁.disconnectsOwnStake env call.tx call.fConnect = .ok true

end SyncCall

def runCalls (env : WalletEnv) (w : CWallet) (calls : List SyncCall) : WalletResult CWallet :=
  calls.foldlM (SyncCall.run env) w

open Chratos.Wallet.CWallet

section

variable {env : WalletEnv} {call : SyncCall}

/-- **A call** adds the transaction, or leaves the transactions; if it disconnects a coinstake of the
wallet, which is in the wallet then, it erases the spends of its inputs. -/
theorem syncTransaction_cases (h : call.run env w = .ok w') :
    ∃ w₁, (Same w w₁ ∨ Inserted env call.tx w w₁) ∧ (¬ call.Refunds env w ∧ w' = w₁ ∨
        call.Refunds env w ∧ call.tx.isCoinStake = true ∧ (w₁.txs (env.txHash call.tx)).isSome = true ∧
          ∃ w₂, Same w₁ w₂ ∧ w' = w₂.refundInputs call.tx) := by
  obtain ⟨_, -, h⟩ := bind_eq_ok.mp h
  obtain ⟨⟨b, w₁⟩, hadd, h⟩ := bind_eq_ok.mp h
  obtain ⟨refund, hrefund, h⟩ := bind_eq_ok.mp h
  refine ⟨w₁, addToWalletIfInvolvingMe_cases hadd, ?_⟩
  cases refund with
  | true =>
    obtain ⟨⟨b', w₂⟩, habandon, h⟩ := bind_eq_ok.mp h
    cases h
    refine .inr ⟨⟨b, w₁, hadd, hrefund⟩, ?_, ?_, w₂, abandonTransaction_same habandon, rfl⟩
    · unfold disconnectsOwnStake at hrefund
      split at hrefund
      · next hstake => exact (Bool.and_eq_true_iff.mp hstake).2
      · cases hrefund
    · -- abandoning asserts that the transaction is there
      unfold abandonTransaction at habandon
      unfold txs
      cases hwtx : w₁.mapWallet (env.txHash call.tx) with
      | none =>
        rw [hwtx] at habandon
        cases habandon
      | some wtx => rfl
  | false =>
    cases h
    refine .inl ⟨?_, rfl⟩
    rintro ⟨b', w₁', hadd', hrefund'⟩
    rw [hadd] at hadd'
    cases hadd'
    rw [hrefund] at hrefund'
    cases hrefund'

variable {tx : CTransaction} {hash : Uint256}

theorem CWallet.Inserted.recorded (h : Inserted env tx w w') (hw : w.Recorded) : w'.Recorded := by
  intro hash tx' htx' hcb txin hin
  rw [h.spends]
  rw [h.txs] at htx'
  by_cases heq : hash = env.txHash tx
  · rw [heq, update_self] at htx'
    cases htx'
    exact .inr ⟨hcb, heq, txin, hin, rfl⟩
  · rw [update_of_ne heq] at htx'
    exact .inl (hw hash tx' htx' hcb txin hin)

theorem CWallet.Same.recorded (h : Same w w') (hw : w.Recorded) : w'.Recorded := by
  unfold Recorded
  rw [h.txs, h.spends]
  exact hw

/-- A call that refunds nothing keeps the spends recorded. -/
theorem recorded_run (h : call.run env w = .ok w') (hno : ¬ call.Refunds env w) (hw : w.Recorded) :
    w'.Recorded := by
  obtain ⟨w₁, hadd, ⟨-, rfl⟩ | ⟨hrefunds, -⟩⟩ := syncTransaction_cases h
  · rcases hadd with hadd | hadd
    · exact hadd.recorded hw
    · exact hadd.recorded hw
  · exact absurd hrefunds hno

theorem CWallet.Inserted.sound (h : Inserted env tx w w') (hw : w.Sound) : w'.Sound := by
  intro o hash he
  rw [h.txs]
  rcases (h.spends (o, hash)).mp he with he | ⟨hcb, rfl, txin, hin, hprevout⟩
  · obtain ⟨tx', htx', hspend⟩ := hw o hash he
    refine ⟨tx', ?_, hspend⟩
    rw [update_of_ne, htx']
    rintro rfl
    rw [h.fresh] at htx'
    cases htx'
  · exact ⟨tx, update_self _ _ _, hcb, txin, hin, hprevout⟩

theorem CWallet.Same.sound (h : Same w w') (hw : w.Sound) : w'.Sound := by
  unfold Sound
  rw [h.txs, h.spends]
  exact hw

/-- No call makes up a spend. -/
theorem sound_run (h : call.run env w = .ok w') (hw : w.Sound) : w'.Sound := by
  obtain ⟨w₁, hadd, hrest⟩ := syncTransaction_cases h
  have hw₁ : w₁.Sound := by
    rcases hadd with hadd | hadd
    · exact hadd.sound hw
    · exact hadd.sound hw
  rcases hrest with ⟨-, rfl⟩ | ⟨-, -, -, w₂, hsame, rfl⟩
  · exact hw₁
  · intro o hash he
    exact hsame.sound hw₁ o hash (mem_eraseAll.mp he).1

/-! ## A spend that is lost stays lost -/

/-- A transaction of the wallet whose spend of an outpoint is not recorded. -/
structure Lost (w : CWallet) (hash : Uint256) (tx : CTransaction) (o : COutPoint) : Prop where
  inWallet : w.txs hash = some tx
  missing : (o, hash) ∉ w.mapTxSpends.entries

variable {o : COutPoint}

theorem Lost.of_added {tx' : CTransaction} (hadd : Same w w' ∨ Inserted env tx w w')
    (h : Lost w hash tx' o) : Lost w' hash tx' o := by
  rcases hadd with hadd | hadd
  · refine ⟨?_, ?_⟩
    · rw [hadd.txs]
      exact h.inWallet
    · rw [hadd.spends]
      exact h.missing
  · -- what came in is another transaction
    have hne : hash ≠ env.txHash tx := by
      rintro rfl
      have hfresh := hadd.fresh
      rw [h.inWallet] at hfresh
      cases hfresh
    refine ⟨?_, ?_⟩
    · rw [hadd.txs, update_of_ne hne]
      exact h.inWallet
    · rw [hadd.spends]
      rintro (he | ⟨-, heq, -⟩)
      · exact h.missing he
      · exact hne heq

theorem Lost.run (hrun : call.run env w = .ok w') (h : Lost w hash tx o) : Lost w' hash tx o := by
  obtain ⟨w₁, hadd, ⟨-, rfl⟩ | ⟨-, -, -, w₂, hsame, rfl⟩⟩ := syncTransaction_cases hrun
  · exact h.of_added hadd
  · have hadd₂ : Same w₁ w₂ ∨ Inserted env call.tx w₁ w₂ := .inl hsame
    have hw₂ : Lost w₂ hash tx o := (h.of_added hadd).of_added hadd₂
    exact ⟨hw₂.inWallet, fun he => hw₂.missing (mem_eraseAll.mp he).1⟩

theorem Lost.runCalls {calls : List SyncCall} (hrun : runCalls env w calls = .ok w')
    (h : Lost w hash tx o) : Lost w' hash tx o :=
  foldlM_ok_rec (fun _ w' => Lost w' hash tx o) (fun _ _ _ _ hlost hstep => hlost.run hstep) h hrun

/-- Where the transactions of the wallet come from. -/
theorem txs_of_runCalls {calls : List SyncCall} (hrun : runCalls env w calls = .ok w')
    (htx : w'.txs hash = some tx) :
    w.txs hash = some tx ∨ ∃ call ∈ calls, env.txHash call.tx = hash ∧ call.tx = tx := by
  have hall := foldlM_ok_rec (fun done w' => ∀ hash tx, w'.txs hash = some tx →
    w.txs hash = some tx ∨ ∃ call ∈ done, env.txHash call.tx = hash ∧ call.tx = tx) ?_
    (fun _ _ h => .inl h) hrun
  · exact hall hash tx htx
  · intro done call w₁ w₂ hdone hstep hash tx htx
    obtain ⟨w₃, hadd, hrest⟩ := syncTransaction_cases hstep
    have htx₃ : w₃.txs hash = some tx := by
      rcases hrest with ⟨-, rfl⟩ | ⟨-, -, -, w₄, hsame, rfl⟩
      · exact htx
      · rw [← hsame.txs]
        exact htx
    have hold : w₁.txs hash = some tx →
        w.txs hash = some tx ∨ ∃ c ∈ done ++ [call], env.txHash c.tx = hash ∧ c.tx = tx := by
      intro h
      rcases hdone hash tx h with h | ⟨c, hc, h⟩
      · exact .inl h
      · exact .inr ⟨c, mem_append_left _ hc, h⟩
    rcases hadd with hadd | hadd
    · rw [hadd.txs] at htx₃
      exact hold htx₃
    · rw [hadd.txs] at htx₃
      by_cases heq : hash = env.txHash call.tx
      · rw [heq, update_self] at htx₃
        exact .inr ⟨call, by simp, heq.symm, some.inj htx₃⟩
      · rw [update_of_ne heq] at htx₃
        exact hold htx₃

end

/-! ## Histories -/

/-- The transactions that the wallet has and is told of have different hashes. -/
structure NoCollision (env : WalletEnv) (w : CWallet) (calls : List SyncCall) : Prop where
  wallet : ∀ call ∈ calls, ∀ tx, w.txs (env.txHash call.tx) = some tx → tx = call.tx
  calls : ∀ a ∈ calls, ∀ b ∈ calls, env.txHash a.tx = env.txHash b.tx → a.tx = b.tx

theorem CTransaction.vin_of_isCoinStake {tx : CTransaction} (h : tx.isCoinStake = true) :
    ∃ txin, txin ∈ tx.vin ∧ tx.isCoinBase = false := by
  obtain ⟨i, is, o, o', os, hvin, -⟩ := isCoinStake_iff.mp h
  refine ⟨i, ?_, not_isCoinBase_of_isCoinStake h⟩
  rw [hvin]
  exact mem_cons_self

variable {env : WalletEnv} {calls : List SyncCall} {call : SyncCall}

/-- After a refund the spends are not recorded, whatever follows. -/
theorem not_recorded_of_refunds (hcoll : NoCollision env w calls) {pre post : List SyncCall}
    (hcalls : calls = pre ++ call :: post) (hpre : runCalls env w pre = .ok w₁)
    (hrefunds : call.Refunds env w₁) (hrun : runCalls env w calls = .ok w') : ¬ w'.Recorded := by
  subst hcalls
  obtain ⟨u, hu, hrest⟩ := foldlM_append_eq_ok.mp hrun
  obtain rfl : u = w₁ := by
    have heq := hu.symm.trans hpre
    cases heq
    rfl
  obtain ⟨w₂, hcall, hpost⟩ := foldlM_cons_eq_ok.mp hrest
  obtain ⟨w₃, hadd, ⟨hno, -⟩ | ⟨-, hstake, hin, w₄, hsame, rfl⟩⟩ := syncTransaction_cases hcall
  · exact absurd hrefunds hno
  obtain ⟨tx, htx⟩ := isSome_iff_exists.mp hin
  -- the transaction with this hash is the coinstake
  have htx' : tx = call.tx := by
    have hmem : call ∈ pre ++ call :: post := by simp
    have hold : u.txs (env.txHash call.tx) = some tx → tx = call.tx := by
      intro h
      rcases txs_of_runCalls hpre h with h | ⟨c, hc, hhash, rfl⟩
      · exact hcoll.wallet call hmem tx h
      · exact hcoll.calls c (mem_append_left _ hc) call hmem hhash
    rcases hadd with hadd | hadd
    · rw [hadd.txs] at htx
      exact hold htx
    · rw [hadd.txs, update_self] at htx
      exact (some.inj htx).symm
  subst htx'
  obtain ⟨txin, htxin, hcb⟩ := CTransaction.vin_of_isCoinStake hstake
  have hlost : Lost (w₄.refundInputs call.tx) (env.txHash call.tx) call.tx txin.prevout := by
    refine ⟨?_, ?_⟩
    · show w₄.txs (env.txHash call.tx) = some call.tx
      rw [hsame.txs]
      exact htx
    · intro he
      exact (mem_eraseAll.mp he).2 txin htxin rfl
  have hlost' : Lost w' (env.txHash call.tx) call.tx txin.prevout := hlost.runCalls hpost
  intro hrecorded
  exact hlost'.missing (hrecorded _ _ hlost'.inWallet hcb txin htxin)

theorem recorded_of_no_refunds (hstart : w.Recorded) (hrun : runCalls env w calls = .ok w')
    (hno : ∀ pre call post w₁, calls = pre ++ call :: post → runCalls env w pre = .ok w₁ →
      ¬ call.Refunds env w₁) : w'.Recorded := by
  induction calls generalizing w with
  | nil =>
    cases hrun
    exact hstart
  | cons call calls ih =>
    obtain ⟨w₁, hcall, hrest⟩ := foldlM_cons_eq_ok.mp hrun
    refine ih (recorded_run hcall (hno [] call calls w rfl rfl) hstart) hrest ?_
    intro pre c post w₂ hcalls hpre
    apply hno (call :: pre) c post w₂
    · rw [hcalls]
      rfl
    · exact foldlM_cons_eq_ok.mpr ⟨w₁, hcall, hpre⟩

theorem sound_runCalls (hstart : w.Sound) (hrun : runCalls env w calls = .ok w') : w'.Sound :=
  foldlM_ok_rec (fun _ w' => w'.Sound) (fun _ _ _ _ hsound hstep => sound_run hstep hsound) hstart hrun

/-- **The spends of the wallet** are all recorded just when no coinstake of the wallet was
disconnected; and then a coin that a transaction in the main chain spends is spent for `IsSpent`. -/
theorem spends_recorded_iff (hstart : w.Recorded) (hcoll : NoCollision env w calls)
    (hrun : runCalls env w calls = .ok w') :
    (w'.Recorded ↔ ∀ pre call post w₁, calls = pre ++ call :: post → runCalls env w pre = .ok w₁ →
      ¬ call.Refunds env w₁) ∧
    (w'.Recorded → ∀ (chain : CChain) (h : Uint256) (wtx : CWalletTx), w'.mapWallet h = some wtx →
      wtx.tx.isCoinBase = false → 0 < wtx.getDepthInMainChain chain → ∀ txin ∈ wtx.tx.vin,
        w'.isSpent chain txin.prevout = true) := by
  refine ⟨⟨?_, recorded_of_no_refunds hstart hrun⟩, ?_⟩
  · intro hrecorded pre call post w₁ hcalls hpre hrefunds
    exact not_recorded_of_refunds hcoll hcalls hpre hrefunds hrun hrecorded
  · intro hrecorded chain h wtx hwtx hcb hdepth txin hin
    exact isSpent_of_recorded hrecorded hwtx hcb hdepth hin

/-! ## A coinstake that comes and goes -/

/-- A call that connects refunds nothing. -/
theorem not_refunds_of_connect (h : call.fConnect = true) : ¬ call.Refunds env w := by
  rintro ⟨b, w₁, -, hrefund⟩
  rw [h] at hrefund
  cases hrefund

/-- A run of calls that connect. -/
theorem recorded_of_connects (hstart : w.Recorded) (hrun : runCalls env w calls = .ok w')
    (hall : ∀ call ∈ calls, call.fConnect = true) : w'.Recorded := by
  refine recorded_of_no_refunds hstart hrun fun pre call post _ hcalls _ => ?_
  exact not_refunds_of_connect (hall call (by rw [hcalls]; simp))

/-- The call returns, and the wallet passes a test. -/
def passes (test : CWallet → Bool) : WalletResult CWallet → Bool
  | .ok w => test w
  | .error _ => false

theorem exists_of_passes {test : CWallet → Bool} {r : WalletResult CWallet} (h : passes test r = true) :
    ∃ w, r = .ok w ∧ test w = true := by
  cases r with
  | error e => cases h
  | ok w => exact ⟨w, rfl, h⟩

theorem exists_of_any {test : CWalletTx → Bool} {wtx? : Option CWalletTx} (h : wtx?.any test = true) :
    ∃ wtx, wtx? = some wtx ∧ test wtx = true := by
  cases wtx? with
  | none => cases h
  | some wtx => exact ⟨wtx, rfl, h⟩

theorem recorded_empty : CWallet.empty.Recorded := by
  intro h tx htx
  cases htx

theorem sound_empty : CWallet.empty.Sound := fun _ _ he => absurd he not_mem_nil

/-- Transactions and blocks are told apart by their times, and the wallet has one script. -/
def clockEnv : WalletEnv where
  txHash tx := BitVec.ofNat 256 tx.nTime.toNat
  blockHash block := BitVec.ofNat 256 block.nTime.toNat
  isMine out := out.scriptPubKey = [81]

def clockTx (nTime : UInt32) (vin : List COutPoint) (vout : List CTxOut) : CTransaction where
  nVersion := 1
  nTime := nTime
  vin := vin.map fun prevout => ⟨prevout, [], 0⟩
  vout := vout
  nLockTime := 0

def clockBlock (nTime : UInt32) (vtx : List CTransaction) : CBlock where
  nVersion := 7
  hashPrevBlock := 0
  hashMerkleRoot := 0
  nTime := nTime
  nBits := 0
  nNonce := 0
  vtx := vtx
  vchBlockSig := []

/-- 50 for the wallet from outside. -/
def receipt : CTransaction := clockTx 101 [⟨7, 0⟩] [⟨50, [81]⟩]

/-- The wallet stakes them. -/
def ownStake : CTransaction := clockTx 102 [⟨101, 0⟩] [⟨0, []⟩, ⟨55, [81]⟩]

def shortChain : CChain := ⟨[201], by simp [abandonHash]⟩

def longChain : CChain := ⟨[201, 202], by simp [abandonHash]⟩

def connectReceipt : SyncCall :=
  ⟨shortChain, fun _ => false, receipt, some (clockBlock 201 [receipt]), true⟩

def connectStake : SyncCall :=
  ⟨longChain, fun _ => false, ownStake, some (clockBlock 202 [ownStake]), true⟩

def disconnectStake : SyncCall := ⟨shortChain, fun _ => false, ownStake, none, false⟩

/-- As long as nothing is disconnected, the staked coin is spent. -/
theorem spends_recorded_connected :
    ∃ w, runCalls clockEnv CWallet.empty [connectReceipt, connectStake] = .ok w ∧ w.Recorded ∧
      w.isSpent longChain ⟨101, 0⟩ = true := by
  have hpass : passes (fun w => (w.mapWallet 102).any fun wtx =>
      wtx.tx = ownStake ∧ 0 < wtx.getDepthInMainChain longChain)
      (runCalls clockEnv empty [connectReceipt, connectStake]) = true := by decide +kernel
  obtain ⟨w, hrun, htest⟩ := exists_of_passes hpass
  obtain ⟨wtx, hwtx, htest⟩ := exists_of_any htest
  obtain ⟨htx, hdepth⟩ := of_decide_eq_true htest
  have hcoll : NoCollision clockEnv empty [connectReceipt, connectStake] := by
    constructor
    · intro call _ tx h
      cases h
    · intro a ha b hb
      rcases mem_pair.mp ha with rfl | rfl <;> rcases mem_pair.mp hb with rfl | rfl <;>
        decide +kernel
  have hlaw := spends_recorded_iff recorded_empty hcoll hrun
  have hrecorded : w.Recorded := recorded_of_connects recorded_empty hrun (by decide)
  refine ⟨w, hrun, hrecorded, ?_⟩
  exact hlaw.2 hrecorded longChain 102 wtx hwtx (by rw [htx]; rfl) hdepth ⟨⟨101, 0⟩, [], 0⟩
    (by rw [htx]; decide)

/-- The block of the coinstake is disconnected and connected again: the coinstake is in the main
chain, and the coin it spends is offered. -/
theorem reconnected_stake_not_spent :
    ∃ w wtx, runCalls clockEnv CWallet.empty
      [connectReceipt, connectStake, disconnectStake, connectStake] =
        .ok w ∧ w.mapWallet 102 = some wtx ∧ wtx.tx = ownStake ∧ wtx.getDepthInMainChain longChain = 1 ∧
      (⟨101, 0⟩ : COutPoint) ∈ ownStake.vin.map CTxIn.prevout ∧
        w.isSpent longChain ⟨101, 0⟩ = false := by
  have hpass : passes (fun w => !w.isSpent longChain ⟨101, 0⟩ && (w.mapWallet 102).any fun wtx =>
      wtx.tx = ownStake ∧ wtx.getDepthInMainChain longChain = 1)
      (runCalls clockEnv empty [connectReceipt, connectStake, disconnectStake, connectStake]) =
        true := by decide +kernel
  obtain ⟨w, hrun, htest⟩ := exists_of_passes hpass
  obtain ⟨hspent, htest⟩ := Bool.and_eq_true_iff.mp htest
  obtain ⟨wtx, hwtx, htest⟩ := exists_of_any htest
  obtain ⟨htx, hdepth⟩ := of_decide_eq_true htest
  refine ⟨w, wtx, hrun, hwtx, htx, hdepth, by decide, ?_⟩
  rwa [Bool.not_eq_eq_eq_not, Bool.not_true] at hspent

end Chratos.Wallet
