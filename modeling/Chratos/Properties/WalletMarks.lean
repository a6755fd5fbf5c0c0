import Chratos.Properties.WalletSpends

/-!
# Chratos — abandoned and conflicted transactions of the wallet

What is abandoned, or conflicts with a block, takes what depends on it along. Both loops go on from a
transaction to those that spend its outputs, as `mapTxSpends` has them.
-/

namespace Chratos.Wallet

open Outcome Worklist Chratos.Wallet.CWallet List Option TxSpends

namespace CWallet

variable {h p : Uint256} {w' : CWallet} {env : WalletEnv}

/-- A transaction of the wallet spends an output of another. -/
def Spends (w : CWallet) (parent child : Uint256) : Prop :=
  ∃ tx, w.txs child = some tx ∧ tx.isCoinBase = false ∧ ∃ txin ∈ tx.vin, txin.prevout.hash = parent

theorem Recorded.records {w : CWallet} (hw : w.Recorded) (hspends : w.Spends p h) :
    w.Records p h := by
  obtain ⟨tx, htx, hcb, txin, hin, hhash⟩ := hspends
  exact ⟨txin.prevout, hhash, hw h tx htx hcb txin hin⟩

theorem Sound.spends {w : CWallet} (hw : w.Sound) (hrecords : w.Records p h) : w.Spends p h := by
  obtain ⟨o, hhash, he⟩ := hrecords
  obtain ⟨tx, htx, hcb, txin, hin, hprevout⟩ := hw o h he
  exact ⟨tx, htx, hcb, txin, hin, hprevout ▸ hhash⟩

end CWallet

/-! ## Conflicts -/

/-- A transaction that spends from a conflicted one is conflicted at least as deeply. -/
def CWallet.DepthClosed (w : CWallet) (chain : CChain) : Prop :=
  ∀ p parent h child, w.mapWallet p = some parent → parent.getDepthInMainChain chain < 0 →
    w.mapWallet h = some child → w.Spends p h →
      child.getDepthInMainChain chain ≤ parent.getDepthInMainChain chain

section

variable {w : CWallet} {chain : CChain} {hashBlock : Uint256} {M : Set Uint256}
  {calls : List SyncCall}

/-- A transaction of a marked wallet, from the one it was. -/
theorem depth_of_markedBy (hM : MarkedBy (CWalletTx.conflicted hashBlock) M w w')
    (hblock : hashBlock ∈ chain.vChain) {wtx' : CWalletTx} (hwtx' : w'.mapWallet h = some wtx') :
    ∃ wtx, w.mapWallet h = some wtx ∧ wtx'.tx = wtx.tx ∧
      (h ∈ M ∧ wtx'.getDepthInMainChain chain = -chain.confirmations hashBlock ∨ h ∉ M ∧
        wtx' = wtx) := by
  by_cases hmem : h ∈ M
  · rw [hM.inside h hmem, map_eq_some_iff] at hwtx'
    obtain ⟨wtx, hwtx, rfl⟩ := hwtx'
    exact ⟨wtx, hwtx, rfl, .inl ⟨hmem, wtx.depth_conflicted hblock⟩⟩
  · rw [hM.outside h hmem] at hwtx'
    exact ⟨wtx', hwtx', rfl, .inr ⟨hmem, rfl⟩⟩

theorem depthClosed_of_markedBy {hashTx : Uint256} (hrecorded : w.Recorded)
    (hclosed : w.DepthClosed chain)
    (hblock : hashBlock ∈ chain.vChain) (hM : MarkedBy (CWalletTx.conflicted hashBlock)
      {x | Reach (w.LessConflicted chain (-chain.confirmations hashBlock)) w.Records hashTx x} w w') :
    w'.DepthClosed chain := by
  intro p parent' h child' hparent' hneg hchild' hspends
  have hsame := hM.same fun _ => rfl
  have hspends₀ : w.Spends p h := by
    unfold Spends at hspends ⊢
    rwa [hsame.txs] at hspends
  obtain ⟨parent, hparent, -, hp⟩ := depth_of_markedBy hM hblock hparent'
  obtain ⟨child, hchild, -, hh⟩ := depth_of_markedBy hM hblock hchild'
  rcases hp with ⟨hp, hdepth⟩ | ⟨-, rfl⟩
  · -- the parent is marked: so is the child, unless it was as deep before
    rw [hdepth]
    rcases hh with ⟨-, hdepth'⟩ | ⟨hnot, rfl⟩
    · rw [hdepth']
    · by_contra hlt
      exact hnot (Reach.step hp (hrecorded.records hspends₀) ⟨child', hchild, not_le.mp hlt⟩)
  · have hle := hclosed p parent' h child hparent hneg hchild hspends₀
    rcases hh with ⟨hmem, hdepth'⟩ | ⟨-, rfl⟩
    · obtain ⟨wtx, hwtx, hlt⟩ := Reach.isOpen hmem
      rw [hchild] at hwtx
      cases hwtx
      omega
    · exact hle

/-- **Marking a conflict** keeps the wallet closed, if its spends are recorded: it ends, the
transaction gets the depth of the block or had a lower one, and no other depth is given to any. -/
theorem markConflicted_closed {hashTx : Uint256} (hrecorded : w.Recorded)
    (hclosed : w.DepthClosed chain)
    (hblock : hashBlock ∈ chain.vChain) (hin : (w.mapWallet hashTx).isSome = true) :
    ∃ w', w.markConflicted chain hashBlock hashTx = .ok w' ∧ w'.DepthClosed chain ∧
      (∃ wtx', w'.mapWallet hashTx = some wtx' ∧
        wtx'.getDepthInMainChain chain ≤ -chain.confirmations hashBlock) ∧
      ∀ h wtx, w.mapWallet h = some wtx → ∃ wtx', w'.mapWallet h = some wtx' ∧ wtx'.tx = wtx.tx ∧
        (wtx'.getDepthInMainChain chain = wtx.getDepthInMainChain chain ∨
          wtx'.getDepthInMainChain chain = -chain.confirmations hashBlock) := by
  obtain ⟨w', hmark⟩ := @exists_markConflicted w hashTx hashBlock chain hin
  have hM := markConflicted_spec hmark hblock
  have hthere : ∀ h wtx, w.mapWallet h = some wtx → ∃ wtx', w'.mapWallet h = some wtx' := by
    intro h wtx hwtx
    apply isSome_iff_exists.mp
    rw [hM.isSome h, hwtx]
    rfl
  refine ⟨w', hmark, depthClosed_of_markedBy hrecorded hclosed hblock hM, ?_, ?_⟩
  · obtain ⟨wtx, hwtx⟩ := isSome_iff_exists.mp hin
    obtain ⟨wtx', hwtx'⟩ := hthere hashTx wtx hwtx
    refine ⟨wtx', hwtx', ?_⟩
    obtain ⟨wtx₀, hwtx₀, -, hdepth | ⟨hnot, rfl⟩⟩ := depth_of_markedBy hM hblock hwtx'
    · exact hdepth.2.le
    · by_contra hlt
      exact hnot (Reach.start ⟨wtx', hwtx₀, not_le.mp hlt⟩)
  · intro h wtx hwtx
    obtain ⟨wtx', hwtx'⟩ := hthere h wtx hwtx
    obtain ⟨wtx₀, hwtx₀, htx, hdepth⟩ := depth_of_markedBy hM hblock hwtx'
    rw [hwtx] at hwtx₀
    cases hwtx₀
    refine ⟨wtx', hwtx', htx, ?_⟩
    rcases hdepth with ⟨-, hdepth⟩ | ⟨-, rfl⟩
    · exact .inr hdepth
    · exact .inl rfl

/-! ### The spend of a disconnected coinstake -/

/-- Where nothing is conflicted there is nothing to ask. -/
theorem depthClosed_of_nonneg
    (h : ∀ hash wtx, w.mapWallet hash = some wtx → 0 ≤ wtx.getDepthInMainChain chain) :
    w.DepthClosed chain := by
  intro p parent _ _ hparent hneg
  exact absurd (h p parent hparent) (not_le.mpr hneg)

/-- A wallet that began empty has the transactions it was told of. -/
theorem exists_call_of_mapWallet (hrun : runCalls env CWallet.empty calls = .ok w)
    {wtx : CWalletTx} (hwtx : w.mapWallet h = some wtx) :
    ∃ call ∈ calls, env.txHash call.tx = h := by
  rcases txs_of_runCalls hrun (txs_eq hwtx) with htx | ⟨call, hcall, hhash, -⟩
  · cases htx
  · exact ⟨call, hcall, hhash⟩

/-- A chain that has neither of the two blocks. -/
def otherChain : CChain := ⟨[203], by simp [abandonHash]⟩

def otherDepth (w : CWallet) (h : Uint256) : Option Int :=
  (w.mapWallet h).map (CWalletTx.getDepthInMainChain otherChain)

theorem depthClosed_otherChain (hrun : runCalls clockEnv CWallet.empty calls = .ok w)
    (hcalls : ∀ call ∈ calls, call.tx = receipt ∨ call.tx = ownStake)
    (h101 : otherDepth w 101 = some 0) (h102 : otherDepth w 102 = some 0) :
      w.DepthClosed otherChain := by
  refine depthClosed_of_nonneg fun hash wtx hwtx => ?_
  obtain ⟨call, hcall, rfl⟩ := exists_call_of_mapWallet hrun hwtx
  have hzero : otherDepth w (clockEnv.txHash call.tx) = some 0 := by
    rcases hcalls call hcall with htx | htx
    · rw [htx]
      exact h101
    · rw [htx]
      exact h102
  unfold otherDepth at hzero
  rw [hwtx] at hzero
  exact (some.inj hzero).ge

/-- With the spend recorded, the coinstake gets the conflict of the receipt. -/
theorem markConflicted_closed_connected :
    ∃ w w', runCalls clockEnv CWallet.empty [connectReceipt, connectStake] = .ok w ∧
      w.markConflicted otherChain 203 101 = .ok w' ∧ w'.DepthClosed otherChain := by
  have hpass : passes (fun w => otherDepth w 101 = some 0 ∧ otherDepth w 102 = some 0)
      (runCalls clockEnv empty [connectReceipt, connectStake]) = true := by decide +kernel
  obtain ⟨w, hrun, htest⟩ := exists_of_passes hpass
  obtain ⟨h101, h102⟩ := of_decide_eq_true htest
  have hrecorded : w.Recorded := recorded_of_connects recorded_empty hrun (by decide)
  have hclosed : w.DepthClosed otherChain := by
    refine depthClosed_otherChain hrun (fun call hcall => ?_) h101 h102
    rcases mem_pair.mp hcall with rfl | rfl
    · exact .inl rfl
    · exact .inr rfl
  have hin : (w.mapWallet 101).isSome = true := by
    obtain ⟨wtx, hwtx, -⟩ := map_eq_some_iff.mp h101
    rw [hwtx]
    rfl
  have hblock : (203 : Uint256) ∈ otherChain.vChain := mem_cons_self
  obtain ⟨w', hmark, hclosed', -⟩ := markConflicted_closed hrecorded hclosed hblock hin
  exact ⟨w, w', hrun, hmark, hclosed'⟩

/-- The block of the coinstake was disconnected, so that its spend is not recorded any more. Then
the receipt conflicts with a block, and the coinstake that spends it does not. -/
theorem lost_spend_not_conflicted :
    ∃ w w', runCalls clockEnv CWallet.empty [connectReceipt, connectStake, disconnectStake] = .ok w ∧
      w.DepthClosed otherChain ∧ (203 : Uint256) ∈ otherChain.vChain ∧
      w.markConflicted otherChain 203 101 = .ok w' ∧ ¬ w'.DepthClosed otherChain := by
  have hpass : passes (fun w => (otherDepth w 101 = some 0 ∧ otherDepth w 102 = some 0) ∧
      passes (fun w' => otherDepth w' 101 = some (-1) ∧ otherDepth w' 102 = some 0 ∧
        w'.txs 102 = some ownStake) (w.markConflicted otherChain 203 101) = true)
      (runCalls clockEnv empty [connectReceipt, connectStake, disconnectStake]) = true := by
    decide +kernel
  obtain ⟨w, hrun, htest⟩ := exists_of_passes hpass
  obtain ⟨⟨h101, h102⟩, hpass'⟩ := of_decide_eq_true htest
  obtain ⟨w', hmark, htest'⟩ := exists_of_passes hpass'
  obtain ⟨h101', h102', hstake⟩ := of_decide_eq_true htest'
  refine ⟨w, w', hrun, ?_, mem_cons_self, hmark, fun hclosed => ?_⟩
  · refine depthClosed_otherChain hrun (fun call hcall => ?_) h101 h102
    simp only [mem_cons, not_mem_nil, or_false] at hcall
    rcases hcall with rfl | rfl | rfl
    · exact .inl rfl
    · exact .inr rfl
    · exact .inr rfl
  · obtain ⟨parent, hparent, hneg⟩ := map_eq_some_iff.mp h101'
    obtain ⟨child, hchild, hzero⟩ := map_eq_some_iff.mp h102'
    have hspends : w'.Spends 101 102 := ⟨ownStake, hstake, rfl, ⟨⟨101, 0⟩, [], 0⟩, mem_cons_self, rfl⟩
    have hle := hclosed 101 parent 102 child hparent (by omega) hchild hspends
    omega

end

/-! ## Abandoning -/

section

variable {w : CWallet} {chain : CChain} {inMempool : Uint256 → Bool} {hashTx : Uint256}
  {isOpen : Uint256 → Prop} {x : Uint256}

/-- To get anywhere, the loop of `AbandonTransaction` needs a spend of the first transaction. -/
theorem exists_entry_of_reach
    (h : Reach isOpen (fun x y => y ∈ w.mapTxSpends.spendersFrom hashTx x) hashTx x)
    (hne : x ≠ hashTx) : ∃ o y, o.hash = hashTx ∧ (o, y) ∈ w.mapTxSpends.entries := by
  induction h with
  | start _ => exact absurd rfl hne
  | @step p y _ hnext _ ih =>
    by_cases hp : p = hashTx
    · rw [hp] at hnext
      obtain ⟨o, ho, he⟩ := mem_spendersFrom_self.mp hnext
      exact ⟨o, y, ho, he⟩
    · exact ih hp

/-- The loop gets to the transaction and its direct spends. -/
theorem reach_spendersFrom_iff :
    Reach isOpen (fun x y => y ∈ w.mapTxSpends.spendersFrom hashTx x) hashTx x ↔
      isOpen hashTx ∧ (x = hashTx ∨ w.Records hashTx x ∧ isOpen x) := by
  constructor
  · intro h
    refine ⟨h.isOpen_start, ?_⟩
    cases h with
    | start _ => exact .inl rfl
    | @step p _ hp hnext hopen =>
      by_cases heq : p = hashTx
      · rw [heq] at hnext
        exact .inr ⟨mem_spendersFrom_self.mp hnext, hopen⟩
      · -- with a spend of the first transaction, the loop finds none of another
        obtain ⟨o, y, ho, he⟩ := exists_entry_of_reach hp heq
        rw [spendersFrom_of_ne (Ne.symm heq) he ho] at hnext
        cases hnext
  · rintro ⟨hstart, rfl | ⟨hrecords, hopen⟩⟩
    · exact .start hstart
    · exact .step (.start hstart) (mem_spendersFrom_self.mpr hrecords) hopen

/-- What is to be abandoned with a transaction. -/
def CWallet.Depends (w : CWallet) (chain : CChain) (hashTx : Uint256) : Uint256 → Prop :=
  Reach (w.Abandonable chain) w.Spends hashTx

/-- **Abandoning** is transitive just when there is nothing behind the direct spends: what spends
from one of them, and could be abandoned, spends from the transaction itself. -/
theorem abandonTransaction_transitive_iff (hsound : w.Sound) (hrecorded : w.Recorded)
    (h : w.abandonTransaction chain inMempool hashTx = .ok (true, w')) :
    ((∀ x, w.Depends chain hashTx x → ∃ wtx', w'.mapWallet x = some wtx' ∧ wtx'.isAbandoned = true) ∧
        ∀ x, ¬ w.Depends chain hashTx x → w'.mapWallet x = w.mapWallet x) ↔
      (w.Abandonable chain hashTx → ∀ x y, w.Spends hashTx x → w.Abandonable chain x → w.Spends x y →
        w.Abandonable chain y → y = hashTx ∨ w.Spends hashTx y) := by
  have hM := abandonTransaction_spec h
  -- the marked transactions are the first one and its direct spends
  have hmarked : ∀ x, x ∈ {x | Reach (w.Abandonable chain)
      (fun x y => y ∈ w.mapTxSpends.spendersFrom hashTx x) hashTx x} ↔
      w.Abandonable chain hashTx ∧ (x = hashTx ∨ w.Spends hashTx x ∧ w.Abandonable chain x) := by
    intro x
    rw [Set.mem_ofPred_eq, reach_spendersFrom_iff]
    have hiff : w.Records hashTx x ↔ w.Spends hashTx x := ⟨hsound.spends, hrecorded.records⟩
    rw [hiff]
  generalize {x | Reach (w.Abandonable chain)
    (fun x y => y ∈ w.mapTxSpends.spendersFrom hashTx x) hashTx x} = M at hM hmarked
  constructor
  · rintro ⟨hall, -⟩ hstart x y hx hxopen hy hyopen
    have hdepends : w.Depends chain hashTx y := .step (.step (.start hstart) hx hxopen) hy hyopen
    obtain ⟨wtx', hwtx', habandoned⟩ := hall y hdepends
    by_contra hfar
    -- what is not marked is as it was
    have hnot : y ∉ M := by
      rw [hmarked y]
      tauto
    obtain ⟨wtx, hwtx, -, hwas⟩ := hyopen
    rw [hM.outside y hnot, hwtx] at hwtx'
    cases hwtx'
    rw [hwas] at habandoned
    cases habandoned
  · intro hnear
    have hdepends : ∀ x, w.Depends chain hashTx x ↔ x ∈ M := by
      intro x
      rw [hmarked x]
      constructor
      · intro hx
        have hstart := Reach.isOpen_start hx
        refine ⟨hstart, ?_⟩
        induction hx with
        | start _ => exact .inl rfl
        | step _ hspends hopen ih =>
          rcases ih with rfl | ⟨hchild, hchildOpen⟩
          · exact .inr ⟨hspends, hopen⟩
          · rcases hnear hstart _ _ hchild hchildOpen hspends hopen with heq | hdirect
            · exact .inl heq
            · exact .inr ⟨hdirect, hopen⟩
      · rintro ⟨hstart, rfl | ⟨hspends, hopen⟩⟩
        · exact .start hstart
        · exact .step (.start hstart) hspends hopen
    refine ⟨fun x hx => ?_, fun x hx => hM.outside x fun hmem => hx ((hdepends x).mpr hmem)⟩
    obtain ⟨wtx, hwtx, -⟩ := Reach.isOpen hx
    refine ⟨wtx.abandoned, ?_, rfl⟩
    rw [hM.inside x ((hdepends x).mp hx), hwtx]
    rfl

end

/-! ### Three payments in a row -/

def firstPayment : CTransaction := clockTx 111 [⟨7, 0⟩] [⟨50, [81]⟩]

def secondPayment : CTransaction := clockTx 112 [⟨111, 0⟩] [⟨50, [81]⟩]

def thirdPayment : CTransaction := clockTx 113 [⟨112, 0⟩] [⟨50, [81]⟩]

/-- A transaction got into the mempool. -/
def arrival (tx : CTransaction) : SyncCall := ⟨shortChain, fun _ => true, tx, none, true⟩

variable {w : CWallet} {txs : List CTransaction}

theorem not_refunds_arrivals {call : SyncCall} (h : call ∈ txs.map arrival) : ¬ call.Refunds env w := by
  obtain ⟨tx, -, rfl⟩ := mem_map.mp h
  exact not_refunds_of_connect rfl

/-- Wallets that transactions have come to, from the mempool. -/
theorem reflects_arrivals (hrun : runCalls env CWallet.empty (txs.map arrival) = .ok w) :
    w.Sound ∧ w.Recorded := by
  refine ⟨sound_runCalls sound_empty hrun, recorded_of_no_refunds recorded_empty hrun ?_⟩
  intro pre call post w₁ hcalls _
  have hmem : call ∈ txs.map arrival := by
    rw [hcalls]
    simp
  exact not_refunds_arrivals hmem

/-- The spends in such a wallet. -/
theorem exists_arrival_of_spends (hrun : runCalls env CWallet.empty (txs.map arrival) = .ok w)
    (hspends : w.Spends p h) :
    ∃ tx ∈ txs, env.txHash tx = h ∧ ∃ txin ∈ tx.vin, txin.prevout.hash = p := by
  obtain ⟨tx, htx, -, hin⟩ := hspends
  rcases txs_of_runCalls hrun htx with htx | ⟨call, hcall, hhash, rfl⟩
  · cases htx
  · obtain ⟨tx, hmem, rfl⟩ := mem_map.mp hcall
    exact ⟨tx, hmem, hhash, hin⟩

/-- What a test needs of a payment: it is unconfirmed, and abandoned or not. -/
def unconfirmed (abandoned : Bool) (wtx : CWalletTx) : Bool :=
  wtx.getDepthInMainChain shortChain = 0 ∧ wtx.isAbandoned = abandoned

theorem abandonable_of_any (htest : (w.mapWallet h).any (unconfirmed false) = true) :
    w.Abandonable shortChain h := by
  obtain ⟨wtx, hwtx, htest⟩ := exists_of_any htest
  exact ⟨wtx, hwtx, of_decide_eq_true htest⟩

/-- Abandoning returned, and the wallet passes a test. -/
def abandons (test : CWallet → Bool) : WalletResult (Bool × CWallet) → Bool
  | .ok (fAbandoned, w) => fAbandoned && test w
  | .error _ => false

theorem exists_of_abandons {test : CWallet → Bool} {r : WalletResult (Bool × CWallet)}
    (h : abandons test r = true) : ∃ w, r = .ok (true, w) ∧ test w = true := by
  obtain _ | ⟨fAbandoned, w⟩ := r
  · cases h
  · obtain ⟨hAbandoned, htest⟩ := Bool.and_eq_true_iff.mp h
    cases hAbandoned
    exact ⟨w, rfl, htest⟩

/-- Two payments in a row are both abandoned. -/
theorem abandonTransaction_transitive_two :
    ∃ w w', runCalls clockEnv CWallet.empty ([firstPayment, secondPayment].map arrival) = .ok w ∧
      w.abandonTransaction shortChain (fun _ => false) 111 = .ok (true, w') ∧
      w.Depends shortChain 111 112 ∧ ∃ wtx', w'.mapWallet 112 = some wtx' ∧
        wtx'.isAbandoned = true := by
  have hpass : passes (fun w => (w.mapWallet 111).any (unconfirmed false) ∧
      (w.mapWallet 112).any (unconfirmed false) ∧ w.txs 112 = some secondPayment ∧
      abandons (fun _ => true) (w.abandonTransaction shortChain (fun _ => false) 111))
      (runCalls clockEnv empty ([firstPayment, secondPayment].map arrival)) = true := by
    decide +kernel
  obtain ⟨w, hrun, htest⟩ := exists_of_passes hpass
  obtain ⟨h111, h112, hsecond, habandons⟩ := of_decide_eq_true htest
  obtain ⟨w', habandon, -⟩ := exists_of_abandons habandons
  obtain ⟨hsound, hrecorded⟩ := reflects_arrivals hrun
  have hspends : w.Spends 111 112 :=
    ⟨secondPayment, hsecond, rfl, ⟨⟨111, 0⟩, [], 0⟩, mem_cons_self, rfl⟩
  have hdepends : w.Depends shortChain 111 112 :=
    .step (.start (abandonable_of_any h111)) hspends (abandonable_of_any h112)
  refine ⟨w, w', hrun, habandon, hdepends, ?_⟩
  refine ((abandonTransaction_transitive_iff hsound hrecorded habandon).mpr ?_).1 112 hdepends
  -- nothing spends from the second payment
  intro _ x y hx _ hy _
  obtain ⟨tx, htx, rfl, txin, hin, hhash⟩ := exists_arrival_of_spends hrun hx
  obtain ⟨tx', htx', rfl, txin', hin', hhash'⟩ := exists_arrival_of_spends hrun hy
  rcases mem_pair.mp htx with rfl | rfl
  · cases mem_singleton.mp hin
    exact absurd hhash (by decide)
  · rcases mem_pair.mp htx' with rfl | rfl
    · exact .inl rfl
    · cases mem_singleton.mp hin'
      exact absurd hhash' (by decide)

/-- Of three payments in a row the third is not abandoned. -/
theorem abandon_misses_third : ∃ w w' wtx', runCalls clockEnv CWallet.empty
        ([firstPayment, secondPayment, thirdPayment].map arrival) = .ok w ∧ w.Sound ∧ w.Recorded ∧
      w.abandonTransaction shortChain (fun _ => false) 111 = .ok (true, w') ∧
      w.Depends shortChain 111 113 ∧ w'.mapWallet 113 = some wtx' ∧ wtx'.isAbandoned = false := by
  have hpass : passes (fun w => (w.mapWallet 111).any (unconfirmed false) ∧
      (w.mapWallet 112).any (unconfirmed false) ∧ (w.mapWallet 113).any (unconfirmed false) ∧
      (w.txs 112 = some secondPayment ∧ w.txs 113 = some thirdPayment) ∧
      abandons (fun w' => (w'.mapWallet 113).any (unconfirmed false))
        (w.abandonTransaction shortChain (fun _ => false) 111))
      (runCalls clockEnv empty ([firstPayment, secondPayment, thirdPayment].map arrival)) = true := by
    decide +kernel
  obtain ⟨w, hrun, htest⟩ := exists_of_passes hpass
  obtain ⟨h111, h112, h113, ⟨hsecond, hthird⟩, habandons⟩ := of_decide_eq_true htest
  obtain ⟨w', habandon, htest'⟩ := exists_of_abandons habandons
  obtain ⟨wtx', hwtx', htest'⟩ := exists_of_any htest'
  obtain ⟨hsound, hrecorded⟩ := reflects_arrivals hrun
  have hspends : w.Spends 111 112 :=
    ⟨secondPayment, hsecond, rfl, ⟨⟨111, 0⟩, [], 0⟩, mem_cons_self, rfl⟩
  have hspends' : w.Spends 112 113 :=
    ⟨thirdPayment, hthird, rfl, ⟨⟨112, 0⟩, [], 0⟩, mem_cons_self, rfl⟩
  refine ⟨w, w', wtx', hrun, hsound, hrecorded, habandon, ?_, hwtx', (of_decide_eq_true htest').2⟩
  exact .step (.step (.start (abandonable_of_any h111)) hspends (abandonable_of_any h112)) hspends'
    (abandonable_of_any h113)

end Chratos.Wallet
