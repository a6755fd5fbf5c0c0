import Chratos.Properties.UndoConnect
import Chratos.Consensus.Tip

/-!
# Chratos — which outputs the stake checks read

`CheckStakeKernelHashV2` and `TransactionGetCoinAge` take the transaction an input spends from
`GetTransaction` and read its output at the index the input names. `TransactionGetCoinAge` runs
after the loop over the transactions, which has found every input among the coins. The kernel is
checked before the loop, and before it nothing compares the index with the number of outputs.
-/

namespace Chratos

open Outcome List CCoins Option CTransaction CCoinsView

variable {tx txPrev : CTransaction} {txid hashBlock : Uint256} {hash256 : List UInt8 → Uint256}
  {n : Nat} {view : CCoinsView} {env : Env}

/-! ## `GetTransaction` -/

/-- Where a transaction is looked for: the mempool, the transaction index with what is found at a
position of a block file, and the block at the height of an entry of the coins. -/
structure TxSources where
  mempool : List CTransaction
  fTxIndex : Bool
  readTxIndex : Uint256 → Option (Option (CBlockHeader × CTransaction))
  accessCoins : Uint256 → Option CCoins
  chainActive : Nat → Option (Uint256 × Option CBlock)

/-- The scan of the block at the height of the coins. -/
def TxSources.scanBlock (src : TxSources) (hash256 : List UInt8 → Uint256) (hash : Uint256) :
    Option (CTransaction × Uint256) :=
  match src.accessCoins hash with
  | none => none
  | some coins =>
    match if 0 < coins.nHeight then src.chainActive coins.nHeight else none with
    | some (hashBlock, some block) =>
      (block.vtx.find? fun tx => tx.getHash hash256 = hash).map fun tx => (tx, hashBlock)
    | _ => none

/-- `GetTransaction` with the slow search allowed. A transaction of the mempool leaves `hashBlock`
as the callers have it, null. -/
def TxSources.getTransaction (src : TxSources) (hash256 hash9 : List UInt8 → Uint256)
    (hash : Uint256) : Option (CTransaction × Uint256) :=
  match src.mempool.find? fun tx => tx.getHash hash256 = hash with
  | some tx => some (tx, 0)
  | none =>
    match if src.fTxIndex then src.readTxIndex hash else none with
    | some none => none
    | some (some (header, tx)) =>
      if tx.getHash hash256 ≠ hash then none else some (tx, header.getHash hash256 hash9)
    | none => src.scanBlock hash256 hash

/-- What is found has the hash asked for, wherever it comes from. -/
theorem TxSources.getTransaction_hash {src : TxSources} {hash9 : List UInt8 → Uint256}
    {hash : Uint256}
    (h : src.getTransaction hash256 hash9 hash = some (tx, hashBlock)) : tx.getHash hash256 = hash := by
  unfold TxSources.getTransaction at h
  split at h
  · rename_i found hfind
    cases h
    simpa using find?_some hfind
  · split at h
    · cases h
    · split at h
      · cases h
      · rename_i hsame
        cases h
        exact not_not.mp hsame
    · -- the block at the height of the coins
      unfold TxSources.scanBlock at h
      split at h
      · cases h
      · split at h
        · obtain ⟨found, hfind, heq⟩ := map_eq_some_iff.mp h
          cases heq
          simpa using find?_some hfind
        · cases h

/-! ## What the coins are outputs of -/

/-- Whatever is available satisfies `P`. -/
def CCoinsView.Only (P : Uint256 → Nat → Prop) (view : CCoinsView) : Prop :=
  ∀ txid n, (view.coins txid).isAvailable n = true → P txid n

section

variable {P : Uint256 → Nat → Prop} {nHeight : Nat} {s t : DisconnectState} {txhash : Uint256}

theorem isAvailable_fromTx (h : (fromTx tx nHeight).isAvailable n = true) : n < tx.vout.length := by
  obtain ⟨o, ho, -⟩ := isAvailable_iff.mp (cleanup_isAvailable h)
  obtain ⟨hlt, -⟩ := List.getElem?_eq_some_iff.mp ho
  rwa [length_map] at hlt

/-- A transaction adds its own outputs. -/
theorem updateCoins_only {view' : CCoinsView} {undo : CTxUndo}
    (h : updateCoins txid tx view nHeight = .ok (view', undo)) (hview : view.Only P)
    (htx : ∀ n < tx.vout.length, P txid n) : view'.Only P := by
  intro t n hav
  by_cases ht : t = txid
  · obtain ⟨spent, -, hview'⟩ := updateCoins_eq_ok h
    rw [hview', ht, modifyNewCoins_coins_self] at hav
    rw [ht]
    exact htx n (isAvailable_fromTx (cleanup_isAvailable hav))
  · exact hview t n (updateCoins_isAvailable h ht hav).1

variable {block : CBlock} {state : CValidationState} {pindex : BlockPlace}

/-- **The loop over the transactions** keeps it, and has found every input among the coins. -/
theorem BlockRun.only {txs : List (CTransaction × Nat)} {s s' : ConnectState} {cs : List CScriptCheck}
    (h : BlockRun env block state pindex txs s s' cs)
    (htxs : ∀ txi ∈ txs, ∀ n < txi.1.vout.length, P (env.txHash txi.1) n) (hview : s.view.Only P) :
    s'.view.Only P ∧ ∀ txi ∈ txs, txi.1.isCoinBase = false → ∀ i ∈ txi.1.vin,
      P i.prevout.hash i.prevout.n.toNat := by
  induction h with
  | nil s => exact ⟨hview, nofun⟩
  | @cons txi txs s u s' cs cs' _ heff _ ih =>
    obtain ⟨undo, hupdate, -⟩ := heff.update
    have hnext := updateCoins_only hupdate hview (htxs txi mem_cons_self)
    obtain ⟨hend, hins⟩ := ih (fun x hx => htxs x (mem_cons_of_mem _ hx)) hnext
    refine ⟨hend, forall_mem_cons.mpr ⟨fun hcb i hi => ?_, hins⟩⟩
    -- the inputs are asked for before the round changes the view
    have hspend := heff.spendable hcb
    rw [checkSpendable, bind_ok_iff, rejectIf_eq_ok, Bool.not_eq_false'] at hspend
    obtain ⟨o, ho⟩ := (haveInputs_iff hcb).mp hspend.1 i hi
    exact hview _ _ (isAvailable_of_output? ho)

/-! ### Taking a block back -/

theorem removeOutputs_only (h : s.view.Only P) :
    (removeOutputs txhash tx nHeight s).view.Only P := by
  refine (Function.forall_update_iff _ fun t (c : CCoins) => ∀ n, c.isAvailable n = true → P t n).mpr
    ⟨fun n hav => ?_, fun t _ => h t⟩
  cases cleanup_isAvailable hav

/-- An output put back is the only one that is new. -/
theorem isAvailable_restoreOutput {undo : CTxInUndo} {nPos : Nat} {coins : CCoins}
    (h : (restoreOutput undo nPos coins).1.isAvailable n = true) :
    n = nPos ∨ coins.isAvailable n = true := by
  by_cases hn : n = nPos
  · exact .inl hn
  · refine .inr ?_
    obtain ⟨o, ho, hnull⟩ := isAvailable_iff.mp h
    unfold restoreOutput at ho
    rw [getElem?_set_ne (Ne.symm hn)] at ho
    -- the entry has been replaced by an empty one, or is the one before
    split_ifs at ho with hheight
    · have hmem := mem_of_getElem? ho
      rw [(mem_replicate.mp hmem).2] at hnull
      cases hnull
    · rcases getElem?_append .. ▸ ho with hpos
      by_cases hlt : n < coins.vout.length
      · rw [if_pos hlt] at hpos
        exact isAvailable_iff.mpr ⟨o, hpos, hnull⟩
      · rw [if_neg hlt] at hpos
        rw [(mem_replicate.mp (mem_of_getElem? hpos)).2] at hnull
        cases hnull

theorem restoreInput_only {i : Nat} {input : (CTxIn × CTxInUndo) × Nat}
    (h : restoreInput env nHeight i txhash s input = .ok t) (hview : s.view.Only P)
    (hinput : P input.1.1.prevout.hash input.1.1.prevout.n.toNat) : t.view.Only P := by
  rw [(restoreInput_eq_ok h).1]
  refine (Function.forall_update_iff _ fun t (c : CCoins) => ∀ n, c.isAvailable n = true → P t n).mpr
    ⟨fun n hav => ?_, fun t _ => hview t⟩
  rcases isAvailable_restoreOutput (cleanup_isAvailable hav) with rfl | hold
  · exact hinput
  · exact hview _ _ hold

theorem disconnectTx_only {blockUndo : CBlockUndo} {txi : CTransaction × Nat}
    (h : disconnectTx env state nHeight blockUndo s txi = .ok t) (hview : s.view.Only P)
    (hins : 0 < txi.2 → ∀ i ∈ txi.1.vin, P i.prevout.hash i.prevout.n.toNat) : t.view.Only P := by
  unfold disconnectTx at h
  have hremoved : (removeOutputs (env.txHash txi.1) txi.1 nHeight { s with
      rows := s.rows.append
        (takeBackReceipts env (env.txHash txi.1) txi.1 txi.2 nHeight) }).view.Only P :=
    removeOutputs_only hview
  split at h
  · rename_i hpos
    simp only [bind_eq_ok] at h
    obtain ⟨txundo, -, _, -, hloop⟩ := h
    -- the inputs put back are inputs of the transaction
    have hall := foldlM_ok_rec (fun done (u : DisconnectState) =>
      (∀ x ∈ done, x.1.1 ∈ txi.1.vin) → u.view.Only P) (fun done x u v hu hstep hdone => ?_)
      (fun _ => hremoved) hloop
    · refine hall fun x hx => ?_
      have hzip := fst_mem_of_mem_zipIdx (mem_reverse.mp hx)
      exact (of_mem_zip (a := x.1.1) (b := x.1.2) hzip).1
    · rw [forall_mem_append, forall_mem_singleton] at hdone
      exact restoreInput_only hstep (hu hdone.1) (hins hpos _ hdone.2)
  · cases h
    exact hremoved

theorem disconnectBlock_only {undo : Option CBlockUndo}
    (h : disconnectBlock env block state pindex view undo = .ok t) (hview : view.Only P)
    (hins : ∀ txi ∈ block.vtx.zipIdx, 0 < txi.2 → ∀ i ∈ txi.1.vin, P i.prevout.hash i.prevout.n.toNat) :
    t.view.Only P := by
  obtain ⟨blockUndo, s, -, -, hloop, rfl⟩ := disconnectBlock_eq_ok h
  have hall := foldlM_ok_rec (fun done (u : DisconnectState) =>
    (∀ x ∈ done, x ∈ block.vtx.zipIdx) → u.view.Only P) (fun done x u v hu hstep hdone => ?_)
    (fun _ => hview) hloop
  · exact hall fun x hx => mem_reverse.mp hx
  · rw [forall_mem_append, forall_mem_singleton] at hdone
    exact disconnectTx_only hstep (hu hdone.1) (hins x hdone.2)

end

/-! ## Histories of a node -/

/-- The states of a node, with the transactions of all blocks it has ever connected. Entries may
leave the cache if their outputs are read back. -/
inductive NodeHistory (hash256 : List UInt8 → Uint256) (keys : PubKeys) (hashGenesis : Uint256) :
    List CTransaction → ChainState → Prop
  | start : NodeHistory hash256 keys hashGenesis [] (.start hashGenesis)
  | connect {seen : List CTransaction} {s t : ChainState} {call : ConnectCall}
      (before : NodeHistory hash256 keys hashGenesis seen s) (fits : call.Fits hash256 s)
      (next : s.step keys (.connect call) = some t) :
      NodeHistory hash256 keys hashGenesis (call.block.vtx ++ seen) t
  | disconnect {seen : List CTransaction} {s t : ChainState} {env : Env} {state : CValidationState}
      {pindex : BlockPlace} (before : NodeHistory hash256 keys hashGenesis seen s)
      (fits : ChainAction.Fits hash256 s (.disconnect env state pindex))
      (next : s.step keys (.disconnect env state pindex) = some t) :
      NodeHistory hash256 keys hashGenesis seen t
  | reload {seen : List CTransaction} {s t : ChainState} {ids : Uint256 → Bool}
      (before : NodeHistory hash256 keys hashGenesis seen s)
      (same : ∀ txid, ids txid = true →
        ((s.view.coins txid).reload keys).vout = (s.view.coins txid).vout)
      (next : s.step keys (.reload ids) = some t) : NodeHistory hash256 keys hashGenesis seen t

/-- Output `n` of a transaction that has been seen under the id. -/
def OutputOf (hash256 : List UInt8 → Uint256) (seen : List CTransaction) (txid : Uint256) (n : Nat) :
    Prop :=
  ∃ g ∈ seen, g.getHash hash256 = txid ∧ n < g.vout.length

section

variable {keys : PubKeys} {hashGenesis : Uint256} {seen seen' : List CTransaction} {s : ChainState}

theorem OutputOf.mono (hsub : seen ⊆ seen')
    (h : OutputOf hash256 seen txid n) : OutputOf hash256 seen' txid n := by
  obtain ⟨g, hg, hhash, hn⟩ := h
  exact ⟨g, hsub hg, hhash, hn⟩

/-- The coins, and the inputs of the blocks that may still be disconnected, are outputs of transactions
the node has seen. -/
theorem NodeHistory.outputOf (h : NodeHistory hash256 keys hashGenesis seen s) :
    s.view.Only (OutputOf hash256 seen) ∧ ∀ block ∈ s.blocks, ∀ txi ∈ block.vtx.zipIdx, 0 < txi.2 →
      ∀ i ∈ txi.1.vin, OutputOf hash256 seen i.prevout.hash i.prevout.n.toNat := by
  induction h with
  | start => exact ⟨nofun, nofun⟩
  | @connect seen s t call _ hfits hnext ih =>
    obtain ⟨hview, hblocks⟩ := ih
    obtain ⟨r, hrun, rfl⟩ := ChainState.step_connect_eq_some hnext
    have hblock := hfits.checkedBlock hrun
    obtain ⟨_, u, _, _, hpass, rfl⟩ := connectBlock_spec hfits.not_genesis hrun
    have hsub : seen ⊆ call.block.vtx ++ seen := subset_append_right _ _
    have hown : ∀ txi ∈ call.block.vtx.zipIdx, ∀ n < txi.1.vout.length,
        OutputOf hash256 (call.block.vtx ++ seen) (call.env.txHash txi.1) n := by
      intro txi htxi n hn
      refine ⟨txi.1, mem_append_left _ (fst_mem_of_mem_zipIdx htxi), ?_, hn⟩
      rw [← hfits.hash256_eq]
      rfl
    obtain ⟨hend, hins⟩ := hpass.run.only hown fun txid n hav => (hview txid n hav).mono hsub
    refine ⟨hend, forall_mem_cons.mpr ⟨fun txi htxi hpos => ?_, fun b hb txi htxi hpos i hi => ?_⟩⟩
    · -- only the first transaction is a coinbase
      refine hins txi htxi ?_
      have hiff := hblock.coinbase_iff txi htxi
      rw [← Bool.not_eq_true]
      intro hcb
      have := hiff.mp hcb
      omega
    · exact (hblocks b hb txi htxi hpos i hi).mono hsub
  | @disconnect seen s t env state pindex _ hfits hnext ih =>
    obtain ⟨hview, hblocks⟩ := ih
    obtain ⟨block, rest, u, hs, hrun, -, rfl⟩ := ChainState.step_disconnect_eq_some hnext
    rw [hs] at hblocks
    refine ⟨disconnectBlock_only hrun hview (hblocks block mem_cons_self), ?_⟩
    exact fun b hb => hblocks b (mem_cons_of_mem _ hb)
  | @reload seen s t ids _ hsame hnext ih =>
    obtain ⟨hview, hblocks⟩ := ih
    obtain rfl := some.inj hnext
    refine ⟨fun txid n hav => hview txid n ?_, hblocks⟩
    dsimp only at hav
    split at hav
    · rename_i hid
      rwa [isAvailable, hsame txid hid] at hav
    · exact hav

end

/-! ## The reads -/

/-- An output exists in whatever transaction is found under the id. -/
def FoundIn (env : Env) (txid : Uint256) (n : Nat) : Prop :=
  ∀ txPrev hashBlock, env.getTransaction txid = some (txPrev, hashBlock) → n < txPrev.vout.length

/-- What `GetTransaction` finds is what the coins are outputs of. -/
structure LookupAgrees (env : Env) (block : CBlock) (view : CCoinsView) : Prop where
  hash : ∀ txid txPrev hashBlock, env.getTransaction txid = some (txPrev, hashBlock) →
    env.txHash txPrev = txid
  view : view.Only (FoundIn env)
  block : ∀ tx ∈ block.vtx, ∀ n < tx.vout.length, FoundIn env (env.txHash tx) n

/-- Both functions come to `txPrev.vout[prevout.n]`: the transaction is found, in a known block, and the
coin is old enough. -/
def ComesToRead (env : Env) (nTime : UInt32) (txin : CTxIn) (txPrev : CTransaction) : Prop :=
  ∃ hashBlock pblockindex, env.getTransaction txin.prevout.hash = some (txPrev, hashBlock) ∧
    env.mapBlockIndex hashBlock = some pblockindex ∧ ¬ nTime < txPrev.nTime ∧
    ¬ nTime < pblockindex.nTime + env.consensus.nStakeMinAge

/-- What the loop of `TransactionGetCoinAge` makes of the first inputs. -/
def coinAgeOf (env : Env) (nTime : UInt32) (vin : List CTxIn) : Verdict (Option Int) :=
  vin.foldlM (fun acc txin =>
    match acc with
    | none => pure none
    | some age => addCoinAge env nTime age txin) (some 0)

namespace ConnectCall

section

variable (call : ConnectCall) (view : CCoinsView)

/-- `ConnectBlock` gets to the kernel check: the view is that of the parent, and the target is right. -/
structure ComesToKernel : Prop where
  check : checkBlock call.env call.block call.state true true = .ok ()
  best : prevHash call.pindex.pprev = view.hashBlock
  not_genesis : call.env.blockHash call.block ≠ call.env.consensus.hashGenesisBlock
  target : getNextTargetRequired call.env.consensus call.pindex.pprev call.block.isProofOfStake =
    some call.block.nBits
  stake : call.block.isProofOfStake = true

/-- And to the coin age: kernel, modifier and all transactions have passed. -/
structure ComesToCoinAge : Prop extends
    call.ComesToKernel view where
  proof : ∃ proof, checkStake call.env call.block call.state call.pindex.pprev = .ok proof
  bip30 : checkBIP30 call.env call.block call.state call.pindex view = .ok ()
  loop : ∃ s, call.block.vtx.zipIdx.foldlM (connectTx call.env call.block call.state call.pindex
    (call.nScriptCheckThreads ≠ 0)) (startState view call.pindex.pprev, []) = .ok s

/-- `ConnectBlock` reads an output that the transaction has not. -/
inductive ReadsOutside : Prop
  | kernel (comes : call.ComesToKernel view) {tx txPrev : CTransaction} {txin : CTxIn}
      {vin : List CTxIn} (vtx : call.block.vtx[1]? = some tx) (first : tx.vin = txin :: vin)
      (hash : txin.prevout.hash = call.env.txHash txPrev)
      (read : ComesToRead call.env tx.nTime txin txPrev)
      (outside : txPrev.vout.length ≤ txin.prevout.n.toNat)
  | coinAge (comes : call.ComesToCoinAge view) {tx txPrev : CTransaction} {txin : CTxIn}
      {before after : List CTxIn} {age : Int} (vtx : call.block.vtx[1]? = some tx)
      (split : tx.vin = before ++ txin :: after)
      (sum : coinAgeOf call.env tx.nTime before = .ok (some age))
      (read : ComesToRead call.env tx.nTime txin txPrev)
      (outside : txPrev.vout.length ≤ txin.prevout.n.toNat)

/-- The kernel's output exists, if its transaction is found and the coin is old enough. -/
def KernelExists : Prop :=
  ∀ tx txPrev txin vin, call.block.vtx[1]? = some tx → tx.vin = txin :: vin →
    ComesToRead call.env tx.nTime txin txPrev → txin.prevout.n.toNat < txPrev.vout.length

end

end ConnectCall

/-! ### The model stops there -/

section

variable {nTime : UInt32} {txin : CTxIn}

theorem addCoinAge_outside (hread : ComesToRead env nTime txin txPrev)
    (hout : txPrev.vout.length ≤ txin.prevout.n.toNat) (age : Int) :
    addCoinAge env nTime age txin = .error .asserted := by
  obtain ⟨hashBlock, pblockindex, hget, hindex, htime, hage⟩ := hread
  unfold addCoinAge
  rw [hget]
  dsimp only
  rw [if_neg htime, hindex]
  dsimp only
  rw [if_neg hage, getElem?_eq_none hout]
  rfl

theorem checkProofOfStake_outside {chain : PrevChain} {vin : List CTxIn}
    {nBits : UInt32} (hchain : chain ≠ []) (hstake : tx.isCoinStake = true)
      (hvin : tx.vin = txin :: vin)
    (hhash : txin.prevout.hash = env.txHash txPrev) (hread : ComesToRead env tx.nTime txin txPrev)
    (hout : txPrev.vout.length ≤ txin.prevout.n.toNat) :
    checkProofOfStake env chain tx nBits = .error .asserted := by
  obtain ⟨hashBlock, pblockindex, hget, hindex, htime, hage⟩ := hread
  obtain ⟨pindexPrev, rest, rfl⟩ := exists_cons_of_ne_nil hchain
  unfold checkProofOfStake
  have hfirst : orAssert (txin :: vin).head? = .ok txin := rfl
  rw [hstake, hvin, if_neg (by decide), hfirst, ok_bind, hget]
  dsimp only
  rw [hindex]
  dsimp only
  rw [if_neg (not_not.mpr hhash)]
  show checkStakeKernelHash env pindexPrev nBits pblockindex.nTime txPrev txin.prevout tx.nTime = _
  unfold checkStakeKernelHash
  rw [if_neg htime, if_neg hage, getElem?_eq_none hout]
  rfl

end

namespace ConnectCall

variable {call : ConnectCall}

/-- The second transaction of a proof-of-stake block is a coinstake. -/
theorem isCoinStake_of_stake (hstake : call.block.isProofOfStake = true)
    (hvtx : call.block.vtx[1]? = some tx) : tx.isCoinStake = true := by
  unfold CBlock.isProofOfStake at hstake
  split at hstake
  · rename_i first second rest heq
    rw [heq] at hvtx
    cases hvtx
    exact hstake
  · cases hstake

/-- There is a parent, since a target was computed for a stake. -/
theorem ComesToKernel.parent (h : call.ComesToKernel view) : call.pindex.pprev ≠ [] := by
  intro hnil
  have htarget := h.target
  rw [hnil, h.stake] at htarget
  cases htarget

/-- A read outside is where the model stops. -/
theorem ReadsOutside.asserted (h : call.ReadsOutside view) : call.run view = .error .asserted := by
  have hopen : ∀ hcomes : call.ComesToKernel view, call.run view = (do
      let proof ← checkStake call.env call.block call.state call.pindex.pprev
      checkBIP30 call.env call.block call.state call.pindex view
      let s ← call.block.vtx.zipIdx.foldlM (connectTx call.env call.block call.state call.pindex
        (call.nScriptCheckThreads ≠ 0)) (startState view call.pindex.pprev, [])
      checkReward call.env call.block call.state call.pindex.nHeight s.1
      pure (connectedOf call.env call.block call.pindex false proof s.1 s.2)) := by
    intro hcomes
    have hbest : failIf (decide (prevHash call.pindex.pprev ≠ view.hashBlock)) Failure.asserted =
        .ok () :=
      failIf_eq_ok.mpr (decide_eq_false (not_not.mpr hcomes.best))
    unfold run connectBlock
    rw [Bool.not_false, hcomes.check, hbest, if_neg hcomes.not_genesis]
    rfl
  cases h with
  | kernel hcomes hvtx hfirst hhash hread hout =>
    have hstake := isCoinStake_of_stake hcomes.stake hvtx
    have hkernel : checkProofOfStake call.env call.pindex.pprev _ call.block.nBits = .error .asserted :=
      checkProofOfStake_outside hcomes.parent hstake hfirst hhash hread hout
    have hcheck : checkStake call.env call.block call.state call.pindex.pprev = .error .asserted := by
      unfold checkStake
      rw [hcomes.target]
      show (rejectIf (call.block.nBits != call.block.nBits) _ >>= _) = _
      rw [bne_self_eq_false]
      unfold blockProof
      rw [if_pos hcomes.stake, hvtx]
      show ((checkProofOfStake call.env call.pindex.pprev _ call.block.nBits >>= _) >>= _) = _
      rw [hkernel]
      rfl
    rw [hopen hcomes, hcheck]
    rfl
  | @coinAge hcomes tx txPrev txin before after age hvtx hsplit hsum hread hout =>
    have hstake := isCoinStake_of_stake hcomes.stake hvtx
    obtain ⟨proof, hproof⟩ := hcomes.proof
    obtain ⟨s, hloop⟩ := hcomes.loop
    have hcb := not_isCoinBase_of_isCoinStake hstake
    have hage : transactionGetCoinAge call.env tx = .error .asserted := by
      have hall : coinAgeOf call.env tx.nTime tx.vin = .error .asserted := by
        unfold coinAgeOf at hsum ⊢
        rw [hsplit, foldlM_append, hsum]
        show (addCoinAge call.env tx.nTime age txin >>= _) = _
        rw [addCoinAge_outside hread hout]
        rfl
      unfold transactionGetCoinAge
      rw [hcb, if_neg (by decide)]
      show (coinAgeOf call.env tx.nTime tx.vin >>= _) = _
      rw [hall]
      rfl
    have hreward : checkReward call.env call.block call.state call.pindex.nHeight s.1 =
        .error .asserted := by
      unfold checkReward
      rw [if_pos hcomes.stake, hvtx]
      show (transactionGetCoinAge call.env tx >>= _) = _
      rw [hage]
      rfl
    rw [hopen hcomes.toComesToKernel, hproof]
    rw [hcomes.bip30, hloop]
    show (checkReward call.env call.block call.state call.pindex.nHeight s.1 >>= _) = _
    rw [hreward]
    rfl

/-- The coin age is summed over inputs that were found among the coins. -/
theorem ComesToCoinAge.inputs (h : call.ComesToCoinAge view)
    (hagree : LookupAgrees call.env call.block view) (hvtx : call.block.vtx[1]? = some tx) :
    ∀ i ∈ tx.vin, FoundIn call.env i.prevout.hash i.prevout.n.toNat := by
  obtain ⟨⟨s', q'⟩, hloop⟩ := h.loop
  obtain ⟨cs, hrun, -⟩ := connectTx_loop.mp hloop
  have hstake := isCoinStake_of_stake h.stake hvtx
  have hcb := not_isCoinBase_of_isCoinStake hstake
  have htxs : ∀ txi ∈ call.block.vtx.zipIdx, ∀ n < txi.1.vout.length,
      FoundIn call.env (call.env.txHash txi.1) n := fun txi htxi =>
    hagree.block txi.1 (fst_mem_of_mem_zipIdx htxi)
  have hmem : (tx, 1) ∈ call.block.vtx.zipIdx := mem_zipIdx_iff_getElem?.mpr hvtx
  exact (hrun.only htxs hagree.view).2 (tx, 1) hmem hcb

end ConnectCall

/-- All reads of `ConnectBlock` are in bounds exactly if, once it comes to the kernel, the kernel's
output exists; and whatever a node has been through, `GetTransaction` agrees with its coins, if no
two transactions it finds and has seen share a hash. -/
theorem reads_in_bounds_iff (call : ConnectCall) (view : CCoinsView) :
    (LookupAgrees call.env call.block view →
      checkBlock call.env call.block call.state true true = .ok () →
      (¬ call.ReadsOutside view ↔ (call.ComesToKernel view → call.KernelExists))) ∧
    ∀ (hash256 : List UInt8 → Uint256) (keys : PubKeys) (hashGenesis : Uint256)
      (seen : List CTransaction) (s : ChainState) (env : Env) (src : TxSources) (block : CBlock),
      NodeHistory hash256 keys hashGenesis seen s → env.hash256 = hash256 →
      env.getTransaction = src.getTransaction env.hash256 env.hash9 →
      (∀ g ∈ block.vtx ++ seen, ∀ txPrev hashBlock,
        env.getTransaction (env.txHash g) = some (txPrev, hashBlock) →
          txPrev.vout.length = g.vout.length) → LookupAgrees env block s.view := by
  constructor
  · intro hagree hcheck
    constructor
    · intro hin hcomes tx txPrev txin vin hvtx hvin hread
      by_contra hout
      obtain ⟨hashBlock, _, hget, -⟩ := id hread
      exact hin (.kernel hcomes hvtx hvin (hagree.hash _ _ _ hget).symm hread (not_lt.mp hout))
    · intro hkernel hreads
      cases hreads with
      | kernel hcomes hvtx hfirst hhash hread hout =>
        exact absurd (hkernel hcomes _ _ _ _ hvtx hfirst hread) (not_lt.mpr hout)
      | @coinAge hcomes tx txPrev txin before after age hvtx hsplit hsum hread hout =>
        obtain ⟨hashBlock, _, hget, -⟩ := hread
        have hmem : txin ∈ tx.vin := by
          rw [hsplit]
          exact mem_append_right _ mem_cons_self
        exact absurd (hcomes.inputs hagree hvtx txin hmem txPrev hashBlock hget) (not_lt.mpr hout)
  · intro hash256 keys hashGenesis seen s env src block hhistory hhash hget hcollision
    have hfound : ∀ g ∈ block.vtx ++ seen, ∀ n < g.vout.length, FoundIn env (env.txHash g) n := by
      intro g hg n hn txPrev hashBlock htx
      rw [hcollision g hg txPrev hashBlock htx]
      exact hn
    refine ⟨fun txid txPrev hashBlock htx => ?_, fun txid n hav => ?_, fun tx htx =>
      hfound tx (mem_append_left _ htx)⟩
    · rw [hget] at htx
      exact TxSources.getTransaction_hash htx
    · obtain ⟨g, hg, hid, hn⟩ := hhistory.outputOf.1 txid n hav
      rw [← hid, ← hhash]
      exact hfound g (mem_append_right _ hg) n hn

/-! ## A kernel of one's own choice -/

/-- A proof-of-stake block at height 101 that stakes output `n` of the funding transaction, which
has two outputs. -/
def kernelCall (n : UInt32) : ConnectCall where
  env := sampleEnv 101
  nScriptCheckThreads := 0
  block := sampleBlock 101 1532376016 0x1e0fffff [1] [
    sampleCoinbase 101 1532376016 0 [], sampleStake n 1532376016 [0x51] (1012 * COIN)]
  state := {}
  pindex := samplePlace 101

theorem getTransaction_sample (h : (sampleEnv 101).getTransaction txid = some (txPrev, hashBlock)) :
    txid = fundingHash ∧ txPrev = sampleFunding := by
  unfold sampleEnv at h
  dsimp only at h
  split at h
  · rename_i hid
    injection h with h
    exact ⟨hid, (Prod.mk.inj h).1.symm⟩
  · cases h

theorem kernelCall_lookupAgrees {n : UInt32}
    (hfresh : ∀ tx ∈ (kernelCall n).block.vtx, (sampleEnv 101).txHash tx ≠ fundingHash) :
    LookupAgrees (kernelCall n).env (kernelCall n).block (sampleView 101) where
  hash := by
    intro txid txPrev hashBlock h
    obtain ⟨rfl, rfl⟩ := getTransaction_sample h
    rfl
  view := by
    intro txid m hav txPrev hashBlock h
    obtain ⟨rfl, rfl⟩ := getTransaction_sample h
    unfold sampleView at hav
    dsimp only at hav
    rw [if_pos rfl] at hav
    exact isAvailable_fromTx hav
  block := by
    intro tx htx m _ txPrev hashBlock h
    exact absurd (getTransaction_sample h).1 (hfresh tx htx)

/-- Nothing to be found. -/
def noSources : TxSources where
  mempool := []
  fTxIndex := true
  readTxIndex := fun _ => none
  accessCoins := fun _ => none
  chainActive := fun _ => none

theorem reads_in_bounds_iff_sample : ¬ (kernelCall 0).ReadsOutside (sampleView 101) ∧
      LookupAgrees { sampleEnv 101 with
        getTransaction := noSources.getTransaction sampleHash sampleHash } (kernelCall 0).block
        (ChainState.start 1000).view := by
  constructor
  · refine ((reads_in_bounds_iff (kernelCall 0) (sampleView 101)).1
      (kernelCall_lookupAgrees (by decide +kernel)) (by decide +kernel)).mpr ?_
    intro _ tx txPrev txin vin hvtx hvin hread
    obtain rfl : sampleStake 0 1532376016 [0x51] (1012 * COIN) = tx := some.inj hvtx
    obtain rfl := (List.cons.inj hvin).1
    obtain ⟨hashBlock, _, hget, -⟩ := hread
    rw [(getTransaction_sample hget).2]
    decide
  · exact (reads_in_bounds_iff (kernelCall 0) (sampleView 101)).2 sampleHash sampleKeys 1000
      [] (.start 1000)
      _ noSources _ .start rfl rfl nofun

/-- `CheckBlock` and `ContextualCheckBlock` accept a block that stakes output 7 of a transaction
with two outputs, and the kernel check of `ConnectBlock` reads it. -/
theorem kernel_read_outside :
    LookupAgrees (kernelCall 7).env (kernelCall 7).block (sampleView 101) ∧
      checkBlock (kernelCall 7).env (kernelCall 7).block (kernelCall 7).state true true = .ok () ∧
      contextualCheckBlock (kernelCall 7).env (kernelCall 7).block (kernelCall 7).state
        (kernelCall 7).pindex.pprev = .ok () ∧ (kernelCall 7).ReadsOutside (sampleView 101) ∧
      (kernelCall 7).run (sampleView 101) = .error .asserted := by
  have hcheck :
    checkBlock (kernelCall 7).env (kernelCall 7).block (kernelCall 7).state true true = .ok () := by
    decide +kernel
  have hcomes : (kernelCall 7).ComesToKernel (sampleView 101) :=
    ⟨hcheck, by decide +kernel, by decide +kernel, by decide +kernel, by decide +kernel⟩
  have hreads : (kernelCall 7).ReadsOutside (sampleView 101) := by
    have hvtx :
      (kernelCall 7).block.vtx[1]? = some (sampleStake 7 1532376016 [0x51] (1012 * COIN)) := rfl
    have hread : ComesToRead (sampleEnv 101) 1532376016 ⟨⟨fundingHash, 7⟩, [0x51], 0xffffffff⟩
        sampleFunding :=
      ⟨(sampleIndex 1).hash, sampleIndex 1, by decide +kernel, by decide +kernel, by decide, by decide⟩
    exact .kernel hcomes hvtx rfl (show fundingHash = sampleFunding.getHash sampleHash from rfl) hread
      (by decide)
  exact ⟨kernelCall_lookupAgrees (by decide +kernel), hcheck, by decide +kernel, hreads,
    hreads.asserted⟩

end Chratos
