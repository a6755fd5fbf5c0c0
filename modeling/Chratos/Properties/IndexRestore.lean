import Chratos.Properties.UndoConnect

/-!
# Chratos — the optional indexes across a reorganisation

Connecting a block writes rows to three tables, disconnecting it is to take them back. The
address index is taken back row by row. The unspent index is rewritten with heights that undo
records only sometimes have. And for the spent index `DisconnectBlock` collects the rows to
erase, but no call writes them: after a block with any transaction besides its coinbase has come
and gone, its spent rows are still there.

`indexes_restored_iff` makes this exact: the three tables are what they were only when the block
had nothing but a coinbase, none of whose address rows were there before.
-/

namespace Chratos

open Outcome List IndexRows

variable {env : Env} {nHeight i : Nat} {pindex : BlockPlace} {tx : CTransaction} {view : CCoinsView}

/-! ## Rows of a connected block -/

section

variable {block : CBlock} {state : CValidationState}

/-- A row of the spent index as a block of this height writes it. -/
def SpentRow (nHeight : Nat) (row : CSpentIndexKey × CSpentIndexValue) : Prop :=
  row.2.blockHeight = nHeight ∧ row.2.isNull = false

/-- The spent rows of one transaction. -/
theorem spendRows_spentIndex (hhash : env.txHash tx ≠ 0) :
    ∀ row ∈ (spendRows env tx i view nHeight).spentIndex, SpentRow nHeight row := by
  intro row hrow
  unfold spendRows at hrow
  split at hrow
  · cases hrow
  · obtain ⟨input, -, hrow⟩ := mem_flatMap.mp hrow
    dsimp only at hrow
    split at hrow
    · simp only [connectInputRows] at hrow
      split at hrow
      · rw [mem_singleton.mp hrow]
        exact ⟨rfl, by simpa [CSpentIndexValue.isNull] using hhash⟩
      · cases hrow
    · cases hrow

/-- A transaction with inputs has a spent row. -/
theorem spendRows_spentIndex_ne_nil (hindex : env.fSpentIndex = true) (hcb : tx.isCoinBase = false)
    (hvin : tx.vin ≠ []) (hhave : view.haveInputs tx = true) :
    (spendRows env tx i view nHeight).spentIndex ≠ [] := by
  cases hins : tx.vin with
  | nil => exact absurd hins hvin
  | cons txin rest =>
    obtain ⟨o, ho⟩ := (CCoinsView.haveInputs_iff hcb).mp hhave txin (by simp [hins])
    rw [spendRows, if_neg (by simp [hcb]), hins, zipIdx_cons, collect_cons]
    simp [append, ho, connectInputRows, hindex]

/-- The rows of the outputs are not about spending. -/
theorem receiveRows_spentIndex (tx : CTransaction) (i nHeight : Nat) :
    (receiveRows env tx i nHeight).spentIndex = [] := by
  unfold receiveRows
  split
  · refine flatMap_eq_nil_iff.mpr fun out _ => ?_
    unfold connectOutputRows
    dsimp only
    split <;> rfl
  · rfl

/-- Along a run, every spent row has the block's height, and there is one as soon as a
transaction has inputs. -/
theorem BlockRun.spentIndex {txs : List (CTransaction × Nat)} {s s' : ConnectState}
    {cs : List CScriptCheck} (hrun : BlockRun env block state pindex txs s s' cs)
    (hindex : env.fSpentIndex = true) (hhash : ∀ txi ∈ txs, env.txHash txi.1 ≠ 0)
    (hs : ∀ row ∈ s.rows.spentIndex, SpentRow pindex.nHeight row) :
    (∀ row ∈ s'.rows.spentIndex, SpentRow pindex.nHeight row) ∧
      (s.rows.spentIndex ≠ [] → s'.rows.spentIndex ≠ []) ∧
      ((∃ txi ∈ txs, txi.1.isCoinBase = false ∧ txi.1.vin ≠ []) → s'.rows.spentIndex ≠ []) := by
  induction hrun with
  | nil s => exact ⟨hs, id, by simp⟩
  | @cons txi txs s u s' cs cs' hin heff _ ih =>
    have hrows : u.rows.spentIndex = s.rows.spentIndex ++
        (spendRows env txi.1 txi.2 s.view pindex.nHeight).spentIndex := by
      rw [heff.rows]
      simp [append, receiveRows_spentIndex]
    have hu : ∀ row ∈ u.rows.spentIndex, SpentRow pindex.nHeight row := by
      rw [hrows]
      exact forall_mem_append.mpr ⟨hs, spendRows_spentIndex (hhash txi (by simp))⟩
    obtain ⟨hall, hkeep, hrest⟩ := ih (fun x hx => hhash x (by simp [hx])) hu
    refine ⟨hall, fun hne => hkeep ?_, fun hsome => ?_⟩
    · rw [hrows]
      exact append_ne_nil_of_left_ne_nil hne _
    · obtain ⟨x, hx, hcb, hvin⟩ := hsome
      rcases mem_cons.mp hx with rfl | hx
      · refine hkeep ?_
        rw [hrows]
        obtain ⟨_, -, hchecked⟩ := hin.checkedInputs hcb
        exact append_ne_nil_of_right_ne_nil _
          (spendRows_spentIndex_ne_nil hindex hcb hvin hchecked.have_inputs)
      · exact hrest ⟨x, hx, hcb, hvin⟩

end

/-! ## Rows of a coinbase -/

/-- Taking back a receipt names the key that the receipt wrote. -/
theorem disconnectOutputRows_addressIndex (nHeight i : Nat) (txhash : Uint256) (k : Nat)
    (out : CTxOut) : (disconnectOutputRows nHeight i txhash k out).addressIndex =
      (connectOutputRows nHeight i txhash k out).addressIndex := by
  unfold disconnectOutputRows connectOutputRows
  dsimp only
  split <;> rfl

theorem disconnectOutputRows_unspentKeys (nHeight i : Nat) (txhash : Uint256) (k : Nat)
    (out : CTxOut) :
    (disconnectOutputRows nHeight i txhash k out).addressUnspentIndex.map Prod.fst =
      (connectOutputRows nHeight i txhash k out).addressUnspentIndex.map Prod.fst := by
  unfold disconnectOutputRows connectOutputRows
  dsimp only
  split <;> rfl

theorem takeBackReceipts_addressKeys (key : CAddressIndexKey) :
    key ∈ (takeBackReceipts env (env.txHash tx) tx i nHeight).addressIndex.map Prod.fst ↔
      key ∈ (receiveRows env tx i nHeight).addressIndex.map Prod.fst := by
  unfold takeBackReceipts receiveRows
  split
  · simp only [collect, map_flatMap, mem_flatMap, mem_reverse, disconnectOutputRows_addressIndex]
  · rfl

theorem takeBackReceipts_unspentKeys (key : CAddressUnspentKey) :
    key ∈ (takeBackReceipts env (env.txHash tx) tx i nHeight).addressUnspentIndex.map Prod.fst ↔
      key ∈ (receiveRows env tx i nHeight).addressUnspentIndex.map Prod.fst := by
  unfold takeBackReceipts receiveRows
  split
  · simp only [collect, map_flatMap, mem_flatMap, mem_reverse, disconnectOutputRows_unspentKeys]
  · rfl

/-- What is taken back from the unspent index is erased. -/
theorem takeBackReceipts_null :
    ∀ row ∈ (takeBackReceipts env (env.txHash tx) tx i nHeight).addressUnspentIndex,
      row.2.isNull = true := by
  intro row hrow
  unfold takeBackReceipts at hrow
  split at hrow
  · obtain ⟨out, -, hrow⟩ := mem_flatMap.mp hrow
    unfold disconnectOutputRows at hrow
    dsimp only at hrow
    split at hrow
    · rw [mem_singleton.mp hrow]
      rfl
    · cases hrow
  · cases hrow

/-- The receipts of a block carry its height. -/
theorem receiveRows_blockHeight :
    ∀ key ∈ (receiveRows env tx i nHeight).addressIndex.map Prod.fst, key.blockHeight = nHeight := by
  intro key hkey
  obtain ⟨row, hrow, rfl⟩ := mem_map.mp hkey
  unfold receiveRows at hrow
  split at hrow
  · obtain ⟨out, -, hrow⟩ := mem_flatMap.mp hrow
    unfold connectOutputRows at hrow
    dsimp only at hrow
    split at hrow
    · rw [mem_singleton.mp hrow]
    · cases hrow
  · cases hrow

/-- The unspent keys of a transaction's outputs. -/
theorem mem_receiveRows_unspentKeys (hindex : env.fAddressIndex = true) {key : CAddressUnspentKey} :
    key ∈ (receiveRows env tx i nHeight).addressUnspentIndex.map Prod.fst ↔
      ∃ out ∈ tx.vout.zipIdx, 0 < (scriptAddress out.1.scriptPubKey).1 ∧
        key = ⟨(scriptAddress out.1.scriptPubKey).1, (scriptAddress out.1.scriptPubKey).2,
          env.txHash tx, out.2⟩ := by
  rw [receiveRows, if_pos hindex, collect, map_flatMap, mem_flatMap]
  refine exists_congr fun out => and_congr_right fun _ => ?_
  unfold connectOutputRows
  dsimp only
  split
  · rename_i hpos
    simp [hpos]
  · rename_i hpos
    simp [hpos]

/-! ## Blocks -/

/-- Rows for the address index and the spent index belong to blocks below. -/
structure TablesBelow (tables : IndexTables) (nHeight : Nat) : Prop where
  addressIndex : ∀ key, tables.addressIndex key ≠ none → key.blockHeight < nHeight
  spentIndex : ∀ key v, tables.spentIndex key = some v → v.blockHeight < nHeight

/-- No output of the coinbase that pays an address has an unspent row yet. -/
def CoinbaseRowsNew (env : Env) (block : CBlock) (tables : IndexTables) : Prop :=
  ∀ coinbase ∈ block.vtx.head?, ∀ out ∈ coinbase.vout.zipIdx,
    0 < (scriptAddress out.1.scriptPubKey).1 →
      tables.addressUnspentIndex ⟨(scriptAddress out.1.scriptPubKey).1,
        (scriptAddress out.1.scriptPubKey).2, env.txHash coinbase, out.2⟩ = none

section

variable {block : CBlock} {state : CValidationState}
  {coinbase : CTransaction} {undo : Option CBlockUndo} {s : DisconnectState} {tables : IndexTables}

/-- The rows of a block that is nothing but its coinbase. -/
theorem BlockRun.rows_coinbase {s s' : ConnectState} {cs : List CScriptCheck}
    (hcb : coinbase.isCoinBase = true)
    (hrun : BlockRun env block state pindex [(coinbase, 0)] s s' cs) (hs : s.rows = {}) :
    s'.rows = receiveRows env coinbase 0 pindex.nHeight := by
  cases hrun with
  | cons _ heff hrest =>
    cases hrest
    rw [heff.rows, hs, spendRows, if_pos hcb]
    simp [append]

/-- And those that take it back. -/
theorem disconnectBlock_rows_coinbase (hvtx : block.vtx = [coinbase])
    (h : disconnectBlock env block state pindex view undo = .ok s) :
    s.rows = takeBackReceipts env (env.txHash coinbase) coinbase 0 pindex.nHeight := by
  obtain ⟨blockUndo, u, -, -, hu, hs⟩ := disconnectBlock_eq_ok h
  rw [hvtx] at hu
  cases hu
  rw [hs]
  simp [removeOutputs, append]

/-- Spent rows of this height make a difference. -/
theorem updateSpentIndex_ne (htables : TablesBelow tables nHeight)
    {rows : List (CSpentIndexKey × CSpentIndexValue)} (hrows : ∀ row ∈ rows, SpentRow nHeight row)
    (hne : rows ≠ []) : updateSpentIndex rows tables.spentIndex ≠ tables.spentIndex := by
  intro heq
  obtain ⟨row, hrow⟩ := exists_mem_of_ne_nil _ hne
  have hmem : row.1 ∈ rows.map Prod.fst := mem_map_of_mem hrow
  obtain ⟨row', hrow', -, happly⟩ : ∃ row' ∈ rows, row'.1 = row.1 ∧
      updateSpentIndex rows tables.spentIndex row.1 =
        if row'.2.isNull then none else some row'.2 := Batch.apply_of_mem hmem
  obtain ⟨hheight, hnull⟩ := hrows row' hrow'
  have hold : tables.spentIndex row.1 = some row'.2 := by
    rw [← heq, happly, if_neg (by simp [hnull])]
  have := htables.spentIndex _ _ hold
  omega

/-- The rows of a coinbase, written and taken back. -/
theorem tables_coinbase_iff (haddress : env.fAddressIndex = true)
    (htables : TablesBelow tables nHeight) (hhead : block.vtx.head? = some coinbase) :
    disconnectTables env (takeBackReceipts env (env.txHash coinbase) coinbase 0 nHeight)
        (connectTables env (receiveRows env coinbase 0 nHeight) tables) = tables ↔
      CoinbaseRowsNew env block tables := by
  -- The address index had no row of this height.
  have haddr : eraseAddressIndex
      (takeBackReceipts env (env.txHash coinbase) coinbase 0 nHeight).addressIndex
      (writeAddressIndex (receiveRows env coinbase 0 nHeight).addressIndex tables.addressIndex) =
        tables.addressIndex := by
    refine (Batch.apply_erase_eq_iff takeBackReceipts_addressKeys fun _ _ => rfl).mpr ?_
    intro key hkey
    by_contra hsome
    have hlt := htables.addressIndex key hsome
    rw [receiveRows_blockHeight key hkey] at hlt
    omega
  -- The spent index is not touched.
  have hspent : (connectTables env (receiveRows env coinbase 0 nHeight) tables).spentIndex =
      tables.spentIndex := by
    simp [connectTables, updateSpentIndex, receiveRows_spentIndex, Batch.apply]
  have hunspent : updateAddressUnspentIndex
      (takeBackReceipts env (env.txHash coinbase) coinbase 0 nHeight).addressUnspentIndex
      (updateAddressUnspentIndex (receiveRows env coinbase 0 nHeight).addressUnspentIndex
        tables.addressUnspentIndex) = tables.addressUnspentIndex ↔
      CoinbaseRowsNew env block tables := by
    rw [updateAddressUnspentIndex, updateAddressUnspentIndex,
      Batch.apply_erase_eq_iff takeBackReceipts_unspentKeys fun row hrow =>
        if_pos (takeBackReceipts_null row hrow)]
    constructor
    · intro h cb hcb out hout hpos
      rw [hhead] at hcb
      cases hcb
      exact h _ ((mem_receiveRows_unspentKeys haddress).mpr ⟨out, hout, hpos, rfl⟩)
    · intro h key hkey
      obtain ⟨out, hout, hpos, rfl⟩ := (mem_receiveRows_unspentKeys haddress).mp hkey
      exact h coinbase hhead out hout hpos
  rw [← hunspent, disconnectTables, if_pos haddress, IndexTables.mk.injEq, hspent]
  simp only [connectTables, haddress, if_true, haddr, true_and, and_true]

/-- **The indexes after a block has come and gone.** They are what they were exactly when the block
had no transaction besides its coinbase, and the coinbase's unspent rows were new. -/
theorem indexes_restored_iff {n : Nat} {r : Connected}
    (hgen : env.blockHash block ≠ env.consensus.hashGenesisBlock)
    (haddress : env.fAddressIndex = true) (hspent : env.fSpentIndex = true)
    (hhash : ∀ tx ∈ block.vtx, env.txHash tx ≠ 0) (htables : TablesBelow tables pindex.nHeight)
    (hmark : block.MarkEarned env state)
    (hconnect : connectBlock env n block state pindex view false = .ok r)
    (hdisconnect : disconnectBlock env block state pindex r.view undo = .ok s) :
    disconnectTables env s.rows (connectTables env r.rows tables) = tables ↔
      block.vtx.length = 1 ∧ CoinbaseRowsNew env block tables := by
  obtain ⟨_, t, cs, _, hpass, hr⟩ := connectBlock_spec hgen hconnect
  have hrows : r.rows = t.rows := by rw [hr]; rfl
  have hblock := hmark.checkedBlock hpass.check
  obtain ⟨coinbase, rest, hvtx, hcb, hrest⟩ := hblock.shape
  have hhead : block.vtx.head? = some coinbase := by rw [hvtx]; rfl
  by_cases hone : rest = []
  · -- Only the coinbase: what it wrote is erased.
    subst hone
    have hrun := hpass.run
    rw [hvtx] at hrun
    rw [hrows, hrun.rows_coinbase hcb rfl, disconnectBlock_rows_coinbase hvtx hdisconnect,
      tables_coinbase_iff haddress htables hhead, hvtx]
    simp
  · -- Some transaction spends, and its rows stay.
    refine iff_of_false (fun hrestored => ?_) (fun h => ?_)
    · obtain ⟨hall, -, hsome⟩ := hpass.run.spentIndex hspent
        (fun txi htxi => hhash txi.1 (fst_mem_of_mem_zipIdx htxi)) nofun
      obtain ⟨tx, htx⟩ := exists_mem_of_ne_nil _ hone
      have hmem : tx ∈ block.vtx := by rw [hvtx]; exact mem_cons_of_mem _ htx
      obtain ⟨i, hi⟩ : ∃ i, (tx, i) ∈ block.vtx.zipIdx := by
        obtain ⟨i, hi⟩ := mem_iff_getElem?.mp hmem
        exact ⟨i, mem_zipIdx_iff_getElem?.mpr hi⟩
      have hne := hsome ⟨(tx, i), hi, hrest tx htx, (hblock.txs tx hmem).vin_ne⟩
      apply updateSpentIndex_ne htables hall hne
      have hkept := congrArg IndexTables.spentIndex hrestored
      rw [disconnectTables, if_pos haddress, hrows] at hkept
      simpa [connectTables, hspent] using hkept
    · rw [hvtx] at h
      exact hone (length_eq_zero_iff.mp (by simpa using h.1))

end

/-! ## A payment that comes and goes -/

def sampleAddress (b : UInt8) : CScript :=
  [OP_DUP, OP_HASH160, 20] ++ List.replicate 20 b ++ [OP_EQUALVERIFY, OP_CHECKSIG]

/-- A transaction at height 1 with a key to stake with and outputs to two addresses. -/
def addressFunding : CTransaction :=
  { sampleFunding with
    vout := [⟨1000 * COIN, sampleKey⟩, ⟨5 * COIN, sampleAddress 1⟩, ⟨7 * COIN, sampleAddress 2⟩] }

def addressHash : Uint256 := addressFunding.getHash sampleHash

def addressEnv (nHeight : Nat) : Env :=
  { sampleEnv nHeight with
    getTransaction := fun hash =>
      if hash = addressHash then some (addressFunding, (sampleIndex 1).hash) else none }

def addressView (nHeight : Nat) : CCoinsView where
  coins := fun txid => if txid = addressHash then .fromTx addressFunding 1 else {}
  hashBlock := BitVec.ofNat 256 (999 + nHeight)

def emptyTables : IndexTables := ⟨fun _ => none, fun _ => none, fun _ => none⟩

/-- The tables after the funding transaction: its receipts, and its outputs unspent. -/
def addressTables (env : Env) : IndexTables :=
  connectTables env (receiveRows env addressFunding 1 1) emptyTables

/-- A proof-of-stake block at height 101 that spends the output to the first address. -/
def addressBlock : CBlock :=
  sampleBlock 101 1532376016 0x1e0fffff [1] [sampleCoinbase 101 1532376016 0 [],
    { sampleStake 0 1532376016 [0x51] (1012 * COIN) with
      vin := [⟨⟨addressHash, 0⟩, [0x51], 0xffffffff⟩], wit_le := by decide },
    { samplePayment 1 1532376016 [0x51] (5 * COIN) with
      vin := [⟨⟨addressHash, 1⟩, [0x51], 0xffffffff⟩], wit_le := by decide }]

/-- `ConnectBlock`, the undo data to disk and back, `DisconnectBlock`, and what both write. -/
def comeAndGo (env : Env) (keys : PubKeys) (block : CBlock) (pindex : BlockPlace)
    (view : CCoinsView) (tables : IndexTables) : Option IndexTables := do
  let r ← (connectBlock env 0 block {} pindex view false).toOption
  let undo ← unserBlockUndo keys (serBlockUndo keys r.blockundo)
  let s ← (disconnectBlock env block {} pindex r.view (some undo.1)).toOption
  pure (disconnectTables env s.rows (connectTables env r.rows tables))

/-- The unspent row of the output comes back with height 0, and its spent row stays. -/
theorem indexes_not_restored : (addressTables (addressEnv 101)).addressUnspentIndex
        ⟨1, List.replicate 20 1, addressHash, 1⟩ = some ⟨5 * COIN, sampleAddress 1, 1⟩ ∧
      (addressTables (addressEnv 101)).spentIndex ⟨addressHash, 1⟩ = none ∧
      (comeAndGo (addressEnv 101) sampleKeys addressBlock (samplePlace 101) (addressView 101)
        (addressTables (addressEnv 101))).map (fun tables =>
          (tables.addressUnspentIndex ⟨1, List.replicate 20 1, addressHash, 1⟩,
            (tables.spentIndex ⟨addressHash, 1⟩).isSome)) =
        some (some ⟨5 * COIN, sampleAddress 1, 0⟩, true) := by
  decide +kernel

/-- A proof-of-work block at height 100 with nothing but a coinbase that pays an address. -/
def coinbaseBlock : CBlock :=
  sampleBlock 100 1532376000 0x1f00ffff [] [
    { sampleCoinbase 100 1532376000 0 [] with vout := [⟨getBlockSubsidy 100, sampleAddress 3⟩] }]

/-- The indexes are restored after a block with nothing but a coinbase. -/
theorem indexes_restored_coinbase :
    ∃ r s, connectBlock (sampleEnv 100) 0 coinbaseBlock {} (samplePlace 100) (sampleView 100)
        false = .ok r ∧
      disconnectBlock (sampleEnv 100) coinbaseBlock {} (samplePlace 100) r.view (some r.blockundo) =
        .ok s ∧
      disconnectTables (sampleEnv 100) s.rows (connectTables (sampleEnv 100) r.rows emptyTables) =
        emptyTables := by
  obtain ⟨⟨r, s⟩, hrs⟩ := accepts_iff.mp (show accepts (do
      let r ← connectBlock (sampleEnv 100) 0 coinbaseBlock {} (samplePlace 100) (sampleView 100) false
      let s ← disconnectBlock (sampleEnv 100) coinbaseBlock {} (samplePlace 100) r.view
        (some r.blockundo)
      pure (r, s)) = true by decide +kernel)
  simp only [bind_eq_ok] at hrs
  obtain ⟨r', hconnect, s', hdisconnect, heq⟩ := hrs
  have htables : TablesBelow emptyTables (samplePlace 100).nHeight :=
    ⟨fun _ h => absurd rfl h, fun _ _ h => absurd h (Option.some_ne_none _).symm⟩
  refine ⟨r', s', hconnect, hdisconnect, ?_⟩
  exact (indexes_restored_iff (by decide +kernel) rfl rfl (by decide +kernel) htables
    (fun h => by cases h)
    hconnect hdisconnect).mpr ⟨rfl, fun _ _ _ _ _ => rfl⟩

end Chratos
