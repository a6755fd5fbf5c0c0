import Chratos.Coins.Restore
import Chratos.Consensus.ConnectBlock

/-!
# Chratos — disconnecting a block (`main.cpp`: `DisconnectBlock`)

The transactions are taken back from the last to the first: the outputs a transaction created
are compared with what the view has and removed, then its inputs are restored from the undo
records, last input first. Meanwhile rows are collected for the address and the unspent index;
rows for the spent index are collected as well, but nothing writes them.
-/

namespace Chratos

open Outcome List CCoins CTxOut CCoinsView

variable {view view' : CCoinsView} {env : Env} {nHeight i : Nat} {tx : CTransaction}
  {txhash : Uint256} {undo : CTxInUndo}

/-! ## Rows -/

/-- Rows that take back the receipt of the `k`-th output of the `i`-th transaction. -/
def disconnectOutputRows (nHeight i : Nat) (txhash : Uint256) (k : Nat) (out : CTxOut) :
    IndexRows :=
  let (addressType, hashBytes) := scriptAddress out.scriptPubKey
  if 0 < addressType then
    { addressIndex := [(⟨addressType, hashBytes, nHeight, i, txhash, k, false⟩, out.nValue)]
      addressUnspentIndex := [(⟨addressType, hashBytes, txhash, k⟩, CAddressUnspentValue.null)] }
  else {}

/-- Rows that take back the spending of `prevout` by the `j`-th input of the `i`-th transaction.
The height of the unspent row is the one of the undo record. -/
def disconnectInputRows (fAddressIndex fSpentIndex : Bool) (nHeight i : Nat) (txhash : Uint256)
    (j : Nat) (input : CTxIn) (prevout : CTxOut) (undoHeight : Nat) : IndexRows :=
  let (addressType, hashBytes) := scriptAddress prevout.scriptPubKey
  let fAddress := fAddressIndex && 0 < addressType
  { addressIndex := if fAddress then
      [(⟨addressType, hashBytes, nHeight, i, txhash, j, true⟩, int64 (prevout.nValue * -1))] else []
    addressUnspentIndex := if fAddress then
      [(⟨addressType, hashBytes, input.prevout.hash, input.prevout.n.toNat⟩,
        ⟨prevout.nValue, prevout.scriptPubKey, undoHeight⟩)] else []
    spentIndex := if fSpentIndex then
      [(⟨input.prevout.hash, input.prevout.n.toNat⟩, CSpentIndexValue.null)] else [] }

/-! ## The loop -/

structure DisconnectState where
  view : CCoinsView
  fClean : Bool := true
  rows : IndexRows := {}

/-- The outputs of a transaction are compared with the block's and removed. -/
def removeOutputs (txhash : Uint256) (tx : CTransaction) (nHeight : Nat) (s : DisconnectState) :
    DisconnectState :=
  let outs := (s.view.coins txhash).clearUnspendable
  let outsBlock := fromTx tx nHeight
  let outs := if outsBlock.nVersion < 0 then { outs with nVersion := outsBlock.nVersion } else outs
  { s with
    view := s.view.modifyCoins txhash fun _ => clear
    fClean := s.fClean && outs.eqv outsBlock }

/-- The receipts of a transaction, last output first. -/
def takeBackReceipts (env : Env) (txhash : Uint256) (tx : CTransaction) (i nHeight : Nat) :
    IndexRows :=
  if env.fAddressIndex then
    .collect (fun out => disconnectOutputRows nHeight i txhash out.2 out.1) tx.vout.zipIdx.reverse
  else {}

/-- The address index asks the view for the output just put back. -/
def restoredOutput (env : Env) (view : CCoinsView) (out : COutPoint) : Verdict CTxOut :=
  if env.fAddressIndex then orAssert (view.output? out) else pure CTxOut.null

/-- One input restored. -/
def restoreInput (env : Env) (nHeight i : Nat) (txhash : Uint256) (s : DisconnectState)
    (input : (CTxIn × CTxInUndo) × Nat) : Verdict DisconnectState := do
  let r := applyTxInUndo input.1.2 s.view input.1.1.prevout
  let prevout ← restoredOutput env r.1 input.1.1.prevout
  pure {
    view := r.1
    fClean := s.fClean && r.2
    rows := s.rows.append (disconnectInputRows env.fAddressIndex env.fSpentIndex nHeight i txhash
      input.2 input.1.1 prevout input.1.2.nHeight) }

/-- One transaction taken back. -/
def disconnectTx (env : Env) (state : CValidationState) (nHeight : Nat) (blockUndo : CBlockUndo)
    (s : DisconnectState) (txi : CTransaction × Nat) : Verdict DisconnectState :=
  let txhash := env.txHash txi.1
  let s := removeOutputs txhash txi.1 nHeight
    { s with rows := s.rows.append (takeBackReceipts env txhash txi.1 txi.2 nHeight) }
  if 0 < txi.2 then do
    let txundo ← orAssert blockUndo[txi.2 - 1]?
    failIf (txundo.length ≠ txi.1.vin.length) (.rejected state)
    (txi.1.vin.zip txundo).zipIdx.reverse.foldlM (restoreInput env nHeight txi.2 txhash) s
  else pure s

/-- `DisconnectBlock` up to the point where `pfClean` makes a difference. Missing or unreadable
undo data and data of the wrong size are bare errors. -/
def disconnectBlock (env : Env) (block : CBlock) (state : CValidationState) (pindex : BlockPlace)
    (view : CCoinsView) (undo : Option CBlockUndo) : Verdict DisconnectState := do
  failIf (pindex.phashBlock ≠ some view.hashBlock) .asserted
  match undo with
  | none => .error (.rejected state)
  | some blockUndo => do
    failIf (blockUndo.length + 1 ≠ block.vtx.length) (.rejected state)
    let s ← block.vtx.zipIdx.reverse.foldlM (disconnectTx env state pindex.nHeight blockUndo)
      { view := view }
    pure { s with view := s.view.setBestBlock (prevHash pindex.pprev) }

variable {block : CBlock} {state : CValidationState} {pindex : BlockPlace}
  {t s : CCoinsView × CBlockUndo} {vtx : List CTransaction} {txs : List (CTransaction × Nat)}

theorem disconnectBlock_eq_ok {undo : Option CBlockUndo} {t : DisconnectState}
    (h : disconnectBlock env block state pindex view undo = .ok t) :
    ∃ blockUndo s, undo = some blockUndo ∧ blockUndo.length + 1 = block.vtx.length ∧
      block.vtx.zipIdx.reverse.foldlM (disconnectTx env state pindex.nHeight blockUndo)
        { view := view } = .ok s ∧
      t = { s with view := s.view.setBestBlock (prevHash pindex.pprev) } := by
  unfold disconnectBlock at h
  rw [failIf_bind_eq_ok] at h
  cases undo with
  | none => cases h.2
  | some blockUndo =>
    have hrest := h.2
    rw [failIf_bind_eq_ok, bind_eq_ok] at hrest
    obtain ⟨hlen, s, hs, ht⟩ := hrest
    cases ht
    exact ⟨blockUndo, s, rfl, by simpa using hlen, hs, rfl⟩

/-- What is written to the tables when `pfClean` is null. The rows of the spent index are
dropped. -/
def disconnectTables (env : Env) (rows : IndexRows) (tables : IndexTables) : IndexTables :=
  if env.fAddressIndex then
    { tables with
      addressIndex := eraseAddressIndex rows.addressIndex tables.addressIndex
      addressUnspentIndex :=
        updateAddressUnspentIndex rows.addressUnspentIndex tables.addressUnspentIndex }
  else tables

/-- What is written when a block is connected. -/
def connectTables (env : Env) (rows : IndexRows) (tables : IndexTables) : IndexTables where
  addressIndex := if env.fAddressIndex then writeAddressIndex rows.addressIndex tables.addressIndex
    else tables.addressIndex
  addressUnspentIndex := if env.fAddressIndex then
      updateAddressUnspentIndex rows.addressUnspentIndex tables.addressUnspentIndex
    else tables.addressUnspentIndex
  spentIndex := if env.fSpentIndex then updateSpentIndex rows.spentIndex tables.spentIndex
    else tables.spentIndex

/-! ## Removing outputs -/

theorem dropUnspendable_dropUnspendable (o : CTxOut) :
    dropUnspendable (dropUnspendable o) = dropUnspendable o := by
  by_cases h : isUnspendable o.scriptPubKey = true
  · have hnull : dropUnspendable o = null := by
      rw [dropUnspendable, if_pos h]
    rw [hnull]
    rfl
  · have hkeep : dropUnspendable o = o := by
      rw [dropUnspendable, if_neg h]
    rw [hkeep, hkeep]

/-- An entry made from a transaction has nothing unspendable left. -/
theorem map_dropUnspendable_fromTx (tx : CTransaction) (nHeight : Nat) :
    (fromTx tx nHeight).vout.map dropUnspendable = (fromTx tx nHeight).vout := by
  conv_rhs => rw [← map_id (fromTx tx nHeight).vout]
  refine map_congr_left fun o ho => ?_
  have hmem : o ∈ tx.vout.map dropUnspendable := (List.rdropWhile_prefix _ _).subset ho
  obtain ⟨x, -, rfl⟩ := mem_map.mp hmem
  exact dropUnspendable_dropUnspendable x

/-- The comparison with the block does not notice a version lost on disk: the code overwrites
negative ones before it compares. -/
theorem eqv_fromTx {c : CCoins} (h : (fromTx tx nHeight).Same c) : let outs := c.clearUnspendable
    let outsBlock := fromTx tx nHeight
    (if outsBlock.nVersion < 0 then { outs with nVersion := outsBlock.nVersion } else outs).eqv
      outsBlock = true := by
  have hclean : (fromTx tx nHeight).vout.rdropWhile isNull =
      (fromTx tx nHeight).vout := congrArg vout (cleanup_cleanup _)
  have hvout : c.clearUnspendable.vout = (fromTx tx nHeight).vout := by
    show (c.vout.map dropUnspendable).rdropWhile isNull = _
    rw [h.vout, map_dropUnspendable_fromTx, hclean]
  dsimp only
  by_cases hnil : (fromTx tx nHeight).vout = []
  · -- Both are empty.
    have hpruned : (fromTx tx nHeight).isPruned = true := by rw [isPruned, hnil]; rfl
    have hpruned' : c.clearUnspendable.isPruned = true := by
      rw [isPruned, hvout, hnil]
      rfl
    split
    · rw [eqv, hpruned, isPruned]
      rw [isPruned] at hpruned'
      rw [hpruned']
      rfl
    · rw [eqv, hpruned, hpruned']
      rfl
  · have hcb : c.clearUnspendable.fCoinBase = (fromTx tx nHeight).fCoinBase := h.fCoinBase hnil
    have hheight : c.clearUnspendable.nHeight = (fromTx tx nHeight).nHeight := h.nHeight hnil
    split
    · simp [eqv, hvout, hcb, hheight]
    · rename_i hneg
      have hversion : c.clearUnspendable.nVersion = (fromTx tx nHeight).nVersion := by
        rcases h.nVersion hnil with heq | hstored
        · exact heq
        · have : storedVersion (fromTx tx nHeight).nVersion =
              (fromTx tx nHeight).nVersion := if_pos (by omega)
          rw [this] at hstored
          exact hstored
      simp [eqv, hvout, hcb, hheight, hversion]

/-- A step back to `view`: nothing inconsistent is found, the best block stays, and rows are added. -/
structure TakenBack (view : CCoinsView) (rows : IndexRows) (s s' : DisconnectState) : Prop where
  same : view.Same s'.view
  fClean : s'.fClean = s.fClean
  hashBlock : s'.view.hashBlock = s.view.hashBlock
  rows : s'.rows = s.rows.append rows

theorem TakenBack.trans {rows rows' : IndexRows} {s t u : DisconnectState}
    (h : TakenBack view' rows s t) (h' : TakenBack view rows' t u) :
      TakenBack view (rows.append rows') s u :=
  ⟨h'.same, h'.fClean.trans h.fClean, h'.hashBlock.trans h.hashBlock, by
    rw [h'.rows, h.rows, IndexRows.append_assoc]⟩

/-- **Removing outputs** right after they were added leaves the view they were added to. -/
theorem removeOutputs_modifyNewCoins {s : DisconnectState} (hempty : (view.coins txhash).vout = [])
    (hs : (view.modifyNewCoins txhash fun _ => fromTx tx nHeight).Same s.view) (rows : IndexRows) :
    TakenBack view rows s (removeOutputs txhash tx nHeight { s with rows := s.rows.append rows }) := by
  have hentry := hs txhash
  rw [modifyNewCoins_coins_self, fromTx, clearUnspendable,
    cleanup_cleanup, ← clearUnspendable, ← fromTx] at hentry
  refine ⟨(Function.forall_update_iff _ fun t => (view.coins t).Same).mpr
    ⟨⟨hempty.symm, (absurd hempty ·), (absurd hempty ·), (absurd hempty ·)⟩, fun t ht =>
      ?_⟩, ?_, rfl, rfl⟩
  · have hother := hs t
    rwa [modifyNewCoins_coins_of_ne _ _ ht] at hother
  · rw [removeOutputs, eqv_fromTx hentry, Bool.and_true]

/-! ## Restoring inputs -/

/-- The output just put back is there. -/
theorem applyTxInUndo_output? {out : COutPoint} (h : undo.txout.isNull = false) :
    (applyTxInUndo undo view out).1.output? out = some undo.txout := by
  rw [applyTxInUndo, CCoinsView.output?, CCoinsView.modifyCoins_coins_self, output?_eq_some]
  refine ⟨getElem?_rdropWhile (getElem?_set_self ?_) h, h⟩
  simp only [length_append, length_replicate]
  omega

section

variable {s : DisconnectState}

theorem restoreInput_eq_ok {t : DisconnectState} {input : (CTxIn × CTxInUndo) × Nat}
    (h : restoreInput env nHeight i txhash s input = .ok t) :
    t.view = (applyTxInUndo input.1.2 s.view input.1.1.prevout).1 ∧
      t.fClean = (s.fClean && (applyTxInUndo input.1.2 s.view input.1.1.prevout).2) := by
  simp only [restoreInput, bind_eq_ok] at h
  obtain ⟨o, -, h⟩ := h
  cases h
  exact ⟨rfl, rfl⟩

/-- One input, when there is something to put back. -/
theorem restoreInput_eq {txin : CTxIn} {j : Nat}
    (h : undo.txout.isNull = false) : restoreInput env nHeight i txhash s ((txin, undo), j) = .ok {
      view := (applyTxInUndo undo s.view txin.prevout).1
      fClean := s.fClean && (applyTxInUndo undo s.view txin.prevout).2
      rows := s.rows.append (disconnectInputRows env.fAddressIndex env.fSpentIndex nHeight i txhash
        j txin undo.txout undo.nHeight) } := by
  unfold restoreInput restoredOutput
  cases hindex : env.fAddressIndex with
  | true =>
    simp only [if_true, applyTxInUndo_output? h]
    rfl
  | false =>
    -- Without the index the output is not looked at.
    rfl

/-- The rows that take back the inputs of a transaction, last input first. -/
def takeBackSpends (env : Env) (nHeight i : Nat) (txhash : Uint256)
    (inputs : List ((CTxIn × CTxInUndo) × Nat)) : IndexRows :=
  .collect (fun input => disconnectInputRows env.fAddressIndex env.fSpentIndex nHeight i txhash
    input.2 input.1.1 input.1.2.txout input.1.2.nHeight) inputs.reverse

/-- **The inputs of a transaction.** Restoring what was spent, last input first. -/
theorem restoreInputs_spendInputs (env : Env) (nHeight i : Nat) (txhash : Uint256)
    {ins : List CTxIn} {undo : CTxUndo} (hview : view.Sound)
    (hspend : ins.foldlM spendInput (view, []) = .ok (view', undo)) :
    view'.Sound ∧ undo.length = ins.length ∧ (∀ u ∈ undo, u.Storable) ∧
      ∀ s : DisconnectState, view'.Same s.view →
        ∃ s', (ins.zip (undo.map CTxInUndo.stored)).zipIdx.reverse.foldlM
            (restoreInput env nHeight i txhash) s = .ok s' ∧
          TakenBack view (takeBackSpends env nHeight i txhash
            (ins.zip (undo.map CTxInUndo.stored)).zipIdx) s s' := by
  -- Induction from the last input: it is spent last and restored first.
  induction ins using reverseRecOn generalizing view' undo with
  | nil =>
    cases hspend
    exact ⟨hview, rfl, nofun, fun s hs => ⟨s, rfl, hs, rfl, rfl, by
      simp [takeBackSpends, IndexRows.collect]⟩⟩
  | append_singleton ins txin ih =>
    obtain ⟨⟨mid, done⟩, hins, hstep⟩ := foldlM_concat_eq_ok.mp hspend
    obtain ⟨hmid, hlen, hstorable, hrestore⟩ := ih hins
    obtain ⟨o, ho, hview', hundo⟩ := spendInput_eq_ok hstep
    dsimp only at ho hview' hundo
    have hu := undoOf_storable (hmid txin.prevout.hash) ho
    have hnull :
      (undoOf o ((mid.coins txin.prevout.hash).spend txin.prevout.n.toNat)).stored.txout.isNull
        = false := not_isNull_of_moneyRange hu.txout.1
    have hsound : view'.Sound := by
      rw [hview']
      exact hmid.modifyCoins ((hmid _).spend _)
    generalize hrec : undoOf o ((mid.coins txin.prevout.hash).spend txin.prevout.n.toNat) = u at *
    have hzip : ((ins ++ [txin]).zip (undo.map CTxInUndo.stored)).zipIdx =
        (ins.zip (done.map CTxInUndo.stored)).zipIdx ++ [((txin, u.stored), ins.length)] := by
      rw [hundo, map_append, zip_append (by rw [length_map, hlen]),
        zipIdx_append, length_zip, length_map, hlen]
      simp
    refine ⟨hsound, by rw [hundo]; simp [hlen], ?_, fun s hs => ?_⟩
    · rw [hundo]
      exact forall_mem_append.mpr ⟨hstorable, by simpa using hu⟩
    · have hone := applyTxInUndo_spend hmid ho (by rw [← hview']; exact hs)
      rw [hrec] at hone
      obtain ⟨hsame, hclean⟩ := hone
      have hfirst : TakenBack mid (disconnectInputRows env.fAddressIndex env.fSpentIndex nHeight i
          txhash ins.length txin u.stored.txout u.stored.nHeight) s
          { view := (applyTxInUndo u.stored s.view txin.prevout).1
            fClean := s.fClean && (applyTxInUndo u.stored s.view txin.prevout).2
            rows := _ } := ⟨hsame, by rw [hclean, Bool.and_true], rfl, rfl⟩
      rw [hzip, reverse_concat, foldlM_cons, restoreInput_eq hnull]
      obtain ⟨s', hs', hrest⟩ := hrestore _ hfirst.same
      refine ⟨s', hs', ?_⟩
      rw [takeBackSpends, reverse_concat, IndexRows.collect_cons]
      exact hfirst.trans hrest

end

/-! ## One transaction -/

/-- The rows that take back a transaction. -/
def takeBackTx (env : Env) (nHeight : Nat) (tx : CTransaction) (i : Nat) (txundo : CTxUndo) :
    IndexRows :=
  (takeBackReceipts env (env.txHash tx) tx i nHeight).append
    (if 0 < i then takeBackSpends env nHeight i (env.txHash tx) (tx.vin.zip txundo).zipIdx else {})

/-- A transaction that can be added to a sound view. -/
structure CTransaction.Addable (tx : CTransaction) : Prop where
  range : ∀ o ∈ tx.vout, moneyRange o.nValue = true
  nVersion_int : IsInt32 tx.nVersion

section

variable {undo : CTxUndo}

/-- **One transaction.** Taking it back right after it was applied. The first transaction is
the coinbase, which has no inputs to restore. -/
theorem disconnectTx_updateCoins (state : CValidationState) (hview : view.Sound)
    (htx : tx.Addable) (hpos : 0 < nHeight) (hlt : nHeight < 2 ^ 31)
      (hcb : tx.isCoinBase = true ↔ i = 0) (hfresh : (view.coins (env.txHash tx)).vout = [])
    (hup : updateCoins (env.txHash tx) tx view nHeight = .ok (view', undo)) :
    view'.Sound ∧ (0 < i → undo.length = tx.vin.length) ∧ (∀ u ∈ undo, u.Storable) ∧
      ∀ (s : DisconnectState) (blockUndo : CBlockUndo), view'.Same s.view →
        (0 < i → blockUndo[i - 1]? = some (undo.map CTxInUndo.stored)) →
        ∃ s', disconnectTx env state nHeight blockUndo s (tx, i) = .ok s' ∧
          TakenBack view (takeBackTx env nHeight tx i (undo.map CTxInUndo.stored)) s s' := by
  obtain ⟨spent, hspent, hview'⟩ := updateCoins_eq_ok hup
  have hentry := CCoins.Sound.fromTx htx.range htx.nVersion_int hpos hlt
  by_cases hi : i = 0
  · -- The coinbase: nothing is spent.
    subst hi
    rw [spendInputs, if_pos (hcb.mpr rfl)] at hspent
    cases hspent
    refine ⟨by rw [hview']; exact hview.modifyNewCoins hentry, nofun, nofun, ?_⟩
    intro s blockUndo hs _
    rw [hview'] at hs
    have hremoved :=
      removeOutputs_modifyNewCoins hfresh hs (takeBackReceipts env (env.txHash tx) tx 0 nHeight)
    exact ⟨_, rfl, by simpa [takeBackTx] using hremoved⟩
  · have hipos : 0 < i := pos_of_ne_zero hi
    have hncb : tx.isCoinBase = false := by
      rw [Bool.eq_false_iff]
      exact fun h => hi (hcb.mp h)
    have hspent' := hspent
    rw [spendInputs, if_neg (by simp [hncb])] at hspent
    obtain ⟨hsound, hlen, hstorable, hrestore⟩ :=
      restoreInputs_spendInputs env nHeight i (env.txHash tx) hview hspent
    -- The transaction's own entry is still empty when its outputs are added.
    have hempty : (spent.coins (env.txHash tx)).vout = [] :=
      (hsound _).vout_eq_nil_of_le hfresh fun n hav => (spendInputs_isAvailable hspent' hav).1
    refine ⟨by rw [hview']; exact hsound.modifyNewCoins hentry, fun _ => hlen, hstorable, ?_⟩
    intro s blockUndo hs hundo
    rw [hview'] at hs
    have hremoved :=
      removeOutputs_modifyNewCoins hempty hs (takeBackReceipts env (env.txHash tx) tx i nHeight)
    obtain ⟨s', hs', hrest⟩ := hrestore _ hremoved.same
    refine ⟨s', ?_, ?_⟩
    · rw [disconnectTx, if_pos hipos, hundo hipos]
      refine bind_eq_ok.mpr ⟨_, rfl, failIf_bind_eq_ok.mpr ⟨?_, hs'⟩⟩
      simp [hlen]
    · rw [takeBackTx, if_pos hipos]
      exact hremoved.trans hrest

end

/-! ## All transactions -/

/-- The part of `ConnectBlock`'s loop that changes the view: `UpdateCoins` on every transaction,
with an undo record for all but the first. -/
def connectCoins (env : Env) (nHeight : Nat) (s : CCoinsView × CBlockUndo)
    (txi : CTransaction × Nat) : Verdict (CCoinsView × CBlockUndo) := do
  let r ← updateCoins (env.txHash txi.1) txi.1 s.1 nHeight
  pure (r.1, if 0 < txi.2 then s.2 ++ [r.2] else s.2)

theorem connectCoins_eq_ok {txi : CTransaction × Nat} (h : connectCoins env nHeight s txi = .ok t) :
    ∃ undo, updateCoins (env.txHash txi.1) txi.1 s.1 nHeight = .ok (t.1, undo) ∧
      t.2 = if 0 < txi.2 then s.2 ++ [undo] else s.2 := by
  simp only [connectCoins, bind_eq_ok] at h
  obtain ⟨⟨view, undo⟩, hup, ht⟩ := h
  cases ht
  exact ⟨undo, hup, rfl⟩

theorem zipIdx_concat (vtx : List CTransaction) (tx : CTransaction) :
    (vtx ++ [tx]).zipIdx = vtx.zipIdx ++ [(tx, vtx.length)] := by
  simp [zipIdx_append]

/-- A run ends with its last transaction. -/
theorem connectCoins_concat (h : (vtx ++ [tx]).zipIdx.foldlM (connectCoins env nHeight) s = .ok t) :
    ∃ u undo, vtx.zipIdx.foldlM (connectCoins env nHeight) s = .ok u ∧
      updateCoins (env.txHash tx) tx u.1 nHeight = .ok (t.1, undo) ∧
      t.2 = if 0 < vtx.length then u.2 ++ [undo] else u.2 := by
  rw [zipIdx_concat, foldlM_concat_eq_ok] at h
  obtain ⟨u, hfront, hstep⟩ := h
  obtain ⟨undo, hstep⟩ := connectCoins_eq_ok hstep
  exact ⟨u, undo, hfront, hstep⟩

/-- The view of a run of `ConnectBlock`'s loop is that of `connectCoins`. -/
theorem BlockRun.connectCoins {s s' : ConnectState} {cs : List CScriptCheck}
    (h : BlockRun env block state pindex txs s s' cs) :
    txs.foldlM (Chratos.connectCoins env pindex.nHeight) (s.view, s.blockundo) =
      .ok (s'.view, s'.blockundo) := by
  induction h with
  | nil s => rfl
  | cons _ heff _ ih =>
    obtain ⟨undo, hup, hundo⟩ := heff.update
    rw [foldlM_cons_eq_ok]
    refine ⟨_, ?_, ih⟩
    rw [Chratos.connectCoins, hup, hundo]
    rfl

/-- What is available after a run was so before, unless the run created it. -/
theorem connectCoins_isAvailable (h : txs.foldlM (connectCoins env nHeight) s = .ok t)
    {txid : Uint256} {n : Nat} (hnew : ∀ txi ∈ txs, env.txHash txi.1 ≠ txid)
    (hav : (t.1.coins txid).isAvailable n = true) : (s.1.coins txid).isAvailable n = true := by
  induction txs generalizing s with
  | nil =>
    cases h
    exact hav
  | cons txi txs ih =>
    rw [foldlM_cons_eq_ok] at h
    obtain ⟨u, hstep, hrest⟩ := h
    obtain ⟨undo, hup, -⟩ := connectCoins_eq_ok hstep
    have hu := ih hrest fun x hx => hnew x (by simp [hx])
    exact (updateCoins_isAvailable hup (hnew txi (by simp)).symm hu).1

/-- What a block must be like for its transactions to be taken back: the first is the coinbase,
ids are not repeated, and no id is in use in the view. -/
structure Undoable (env : Env) (view : CCoinsView) (vtx : List CTransaction) : Prop where
  addable : ∀ tx ∈ vtx, tx.Addable
  coinbase : ∀ txi ∈ vtx.zipIdx, txi.1.isCoinBase = true ↔ txi.2 = 0
  nodup : (vtx.map env.txHash).Nodup
  fresh : ∀ tx ∈ vtx, (view.coins (env.txHash tx)).vout = []

theorem Undoable.dropLast (h : Undoable env view (vtx ++ [tx])) : Undoable env view vtx where
  addable := fun x hx => h.addable x (mem_append_left _ hx)
  coinbase := fun x hx => h.coinbase x (by
    rw [zipIdx_append]
    exact mem_append_left _ hx)
  nodup := by
    have := h.nodup
    rw [map_append] at this
    exact this.of_append_left
  fresh := fun x hx => h.fresh x (mem_append_left _ hx)

/-- The undo data a run leaves: one list of writable records for each transaction but the
first, with a record for each input. -/
structure UndoFits (vtx : List CTransaction) (undos : CBlockUndo) : Prop where
  length : undos.length = vtx.length - 1
  sizes : ∀ txundo ∈ undos, ∃ tx ∈ vtx, txundo.length = tx.vin.length
  storable : ∀ txundo ∈ undos, ∀ u ∈ txundo, u.Storable

/-- **All transactions.** Taking back, last first, what a run has applied. The undo data may have
been on disk. -/
theorem disconnectTxs_connectCoins (state : CValidationState) {undos : CBlockUndo}
    (hview : view.Sound) (hpos : 0 < nHeight) (hlt : nHeight < 2 ^ 31)
    (hvtx : Undoable env view vtx)
    (hloop : vtx.zipIdx.foldlM (connectCoins env nHeight) (view, []) = .ok (view', undos)) :
    view'.Sound ∧ UndoFits vtx undos ∧
      ∀ (s : DisconnectState) (blockUndo : CBlockUndo), view'.Same s.view →
        (∀ (j : Nat) (txundo : CTxUndo), undos[j]? = some txundo →
          blockUndo[j]? = some (txundo.map CTxInUndo.stored)) →
        ∃ s', vtx.zipIdx.reverse.foldlM (disconnectTx env state nHeight blockUndo) s = .ok s' ∧
          TakenBack view (.collect (fun txi => takeBackTx env nHeight txi.1 txi.2
            ((blockUndo[txi.2 - 1]?).getD [])) vtx.zipIdx.reverse) s s' := by
  -- Induction from the last transaction: it is applied last and taken back first.
  induction vtx using reverseRecOn generalizing view' undos with
  | nil =>
    cases hloop
    exact ⟨hview, ⟨rfl, nofun, nofun⟩, fun s blockUndo hs _ =>
      ⟨s, rfl, hs, rfl, rfl, by simp [IndexRows.collect]⟩⟩
  | append_singleton vtx tx ih =>
    obtain ⟨⟨mid, done⟩, undo, hfront, hup, hundos⟩ := connectCoins_concat hloop
    obtain ⟨hmid, hfits, hback⟩ := ih hvtx.dropLast hfront
    dsimp only at hup hundos
    -- Its id is not in use when it is applied.
    have hfresh : (mid.coins (env.txHash tx)).vout = [] := by
      refine (hmid _).vout_eq_nil_of_le (hvtx.fresh tx (by simp)) fun n =>
        connectCoins_isAvailable hfront fun txi htxi heq => ?_
      have hnodup := hvtx.nodup
      rw [map_append] at hnodup
      exact disjoint_of_nodup_append hnodup
        (mem_map_of_mem (fst_mem_of_mem_zipIdx htxi)) (by simp [heq])
    have hcb := hvtx.coinbase (tx, vtx.length) (by simp [zipIdx_concat])
    obtain ⟨hsound, hsize, hstorable, hone⟩ := disconnectTx_updateCoins state hmid
      (hvtx.addable tx (by simp)) hpos hlt hcb hfresh hup
    have hdone := hfits.length
    refine ⟨hsound, ?_, fun s blockUndo hs hundo => ?_⟩
    · -- One more list of records, unless this is the coinbase.
      have hsizes : ∀ txundo ∈ done, ∃ x ∈ vtx ++ [tx], txundo.length = x.vin.length :=
        fun txundo htxundo => (hfits.sizes txundo htxundo).imp fun _ h => ⟨mem_append_left _ h.1, h.2⟩
      rcases eq_zero_or_pos vtx.length with hzero | hfirst
      · rw [hundos, if_neg (by omega)]
        exact ⟨by simp [hdone, hzero], hsizes, hfits.storable⟩
      · rw [hundos, if_pos hfirst]
        exact ⟨by simp [hdone]; omega, forall_mem_append.mpr ⟨hsizes, by simp [hsize hfirst]⟩,
          forall_mem_append.mpr ⟨hfits.storable, forall_mem_singleton.mpr hstorable⟩⟩
    · have hown : 0 < vtx.length → blockUndo[vtx.length - 1]? = some (undo.map CTxInUndo.stored) := by
        intro hfirst
        refine hundo _ undo ?_
        rw [hundos, if_pos hfirst, ← hdone, getElem?_append_right le_rfl]
        simp
      have hrest : ∀ (j : Nat) (txundo : CTxUndo), done[j]? = some txundo →
          blockUndo[j]? = some (txundo.map CTxInUndo.stored) := by
        intro j txundo hj
        refine hundo j txundo ?_
        rw [hundos]
        split
        · rw [getElem?_append_left (List.getElem?_eq_some_iff.mp hj).1]
          exact hj
        · exact hj
      obtain ⟨s₁, hs₁, hlast⟩ := hone s blockUndo hs hown
      obtain ⟨s', hs', hbefore⟩ := hback s₁ blockUndo hlast.same hrest
      -- The coinbase's rows do not depend on undo data.
      have hown' : takeBackTx env nHeight tx vtx.length (undo.map CTxInUndo.stored) =
          takeBackTx env nHeight tx vtx.length ((blockUndo[vtx.length - 1]?).getD []) := by
        rcases eq_zero_or_pos vtx.length with hzero | hfirst
        · rw [takeBackTx, takeBackTx, if_neg (by omega), if_neg (by omega)]
        · rw [hown hfirst]
          rfl
      rw [zipIdx_concat, reverse_concat, IndexRows.collect_cons, ← hown']
      exact ⟨s', foldlM_cons_eq_ok.mpr ⟨s₁, hs₁, hs'⟩, hlast.trans hbefore⟩

end Chratos
