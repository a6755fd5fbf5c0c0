import Chratos.Consensus.ConnectBlock
import Chratos.Consensus.Stripped

/-!
# Chratos — blocks that cannot be told apart when they are connected

Connecting a block reads its header, its transactions and, for the scripts, the witness of each
input. It reads neither the block signature (that is `CheckBlock`'s) nor whether the witnesses of
the last inputs are missing or empty. So two blocks with one header and transactions that are
`Alike` fare the same from `CheckBlock` on:

The script interpreter is a parameter; it is asked to look at no other witness than the one it is
given (`WitnessBlind`), as the hash it verifies signatures against does.
-/

namespace Chratos

open Outcome List CTransaction

variable {a b : CTransaction} {env : Env} {block block' : CBlock} {state : CValidationState}
  {pindex : BlockPlace} {view : CCoinsView} {cs' : List CScriptCheck} {s : ConnectState}

/-! ## Transactions -/

/-- The same transaction, with the same witness for every input. -/
structure CTransaction.Alike (a b : CTransaction) : Prop where
  stripped : a.stripped = b.stripped
  witness : a.witnessStacks = b.witnessStacks

/-- The witness an input is verified with. -/
theorem CTransaction.wit_getD (tx : CTransaction) (n : Nat) :
    tx.wit.getD n [] = tx.witnessStacks.getD n [] := by
  rw [witnessStacks, getD_eq_getElem?_getD, getD_eq_getElem?_getD]
  rcases lt_or_ge n tx.wit.length with hlt | hge
  · rw [getElem?_append_left hlt]
  · rw [getElem?_append_right hge, getElem?_eq_none hge, getElem?_replicate]
    split <;> rfl

namespace CTransaction.Alike

/-- What does not see witnesses does not tell them apart. -/
theorem congr (h : a.Alike b) {α : Type} {f : CTransaction → α} (hf : ∀ tx, f tx.stripped = f tx) :
    f a = f b := by
  rw [← hf a, h.stripped, hf]

theorem vin (h : a.Alike b) : a.vin = b.vin := h.congr (f := CTransaction.vin) fun _ => rfl

theorem isCoinBase (h : a.Alike b) : a.isCoinBase = b.isCoinBase :=
  h.congr (f := CTransaction.isCoinBase) fun _ => rfl

theorem isCoinStake (h : a.Alike b) : a.isCoinStake = b.isCoinStake :=
  h.congr (f := CTransaction.isCoinStake) fun _ => rfl

theorem wit_getD (h : a.Alike b) (n : Nat) : a.wit.getD n [] = b.wit.getD n [] := by
  rw [CTransaction.wit_getD, h.witness, ← CTransaction.wit_getD]

end CTransaction.Alike

section

variable {flags : ScriptFlags}

theorem getTransactionSigOpCost_alike (h : a.Alike b) :
    getTransactionSigOpCost a view flags = getTransactionSigOpCost b view flags := by
  have hlegacy : getLegacySigOpCount a = getLegacySigOpCount b :=
    h.congr (f := getLegacySigOpCount) fun _ => rfl
  simp only [getTransactionSigOpCost, hlegacy, h.isCoinBase, h.vin, h.wit_getD]

/-! ## Script checks -/

/-- The interpreter sees the witness it is given and no other. -/
def WitnessBlind (env : Env) : Prop :=
  ∀ scriptSig scriptPubKey stack flags tx nIn amount,
    env.verifyScript scriptSig scriptPubKey stack flags (CTransaction.stripped tx) nIn amount =
      env.verifyScript scriptSig scriptPubKey stack flags tx nIn amount

theorem scriptCheckOf_run_alike (hblind : WitnessBlind env) (h : a.Alike b) (nIn : Nat)
    (o : CTxOut) :
    (scriptCheckOf a flags nIn o).run env = (scriptCheckOf b flags nIn o).run env := by
  have hverify : ∀ txin scriptPubKey amount, verifyInput env a nIn txin scriptPubKey amount flags =
      verifyInput env b nIn txin scriptPubKey amount flags := by
    intro txin scriptPubKey amount
    rw [verifyInput, verifyInput, h.wit_getD, ← hblind, h.stripped, hblind]
  rw [scriptCheckOf_run_eq, scriptCheckOf_run_eq, h.vin, h.isCoinStake]
  cases b.vin[nIn]? with
  | none => rfl
  | some txin => simp only [hverify]

variable {s' : ConnectState}

theorem callsFor_alike (hblind : WitnessBlind env) (h : a.Alike b) {inputs : List (CTxIn × Nat)}
    (hcs : List.Forall₂ (CallsFor env b view flags) inputs cs') :
    ∃ cs, List.Forall₂ (CallsFor env a view flags) inputs cs ∧
      cs.map (CScriptCheck.run env) = cs'.map (CScriptCheck.run env) := by
  have htime : ∀ txin, timestampViolation env a txin = timestampViolation env b txin := fun txin =>
    h.congr (f := fun tx => timestampViolation env tx txin) fun _ => rfl
  induction hcs with
  | nil => exact ⟨[], .nil, rfl⟩
  | @cons input c' inputs cs' hcall _ ih =>
    obtain ⟨cs, hcs, hruns⟩ := ih
    obtain ⟨hearly, o, ho, hc'⟩ := hcall
    refine ⟨scriptCheckOf a flags input.2 o :: cs, .cons ⟨?_, o, ho, rfl⟩ hcs, ?_⟩
    · rw [htime]
      exact hearly
    · rw [map_cons, map_cons, hruns, hc', scriptCheckOf_run_alike hblind h]

/-- **The inputs.** The script checks have the same verdicts. -/
theorem InputChecks.alike (hblind : WitnessBlind env) (h : a.Alike b) {fScriptChecks : Bool}
    (hin : InputChecks env b state view fScriptChecks flags cs') :
    ∃ cs, InputChecks env a state view fScriptChecks flags cs ∧
      cs.map (CScriptCheck.run env) = cs'.map (CScriptCheck.run env) := by
  have hinputs : ∀ n, checkTxInputs env a state view n = checkTxInputs env b state view n := fun n =>
    h.congr (f := fun tx => checkTxInputs env tx state view n) fun _ => rfl
  unfold InputChecks at hin ⊢
  simp only [h.isCoinBase, h.vin, hinputs]
  split at hin
  · rename_i hcb
    simp only [if_pos hcb]
    exact ⟨[], rfl, by rw [hin]⟩
  · rename_i hcb
    simp only [if_neg hcb]
    obtain ⟨nSpendHeight, hheight, hchecked, hcalls⟩ := hin
    split at hcalls
    · rename_i hscripts
      simp only [if_pos hscripts]
      obtain ⟨cs, hcs, hruns⟩ := callsFor_alike hblind h hcalls
      exact ⟨cs, ⟨nSpendHeight, hheight, hchecked, hcs⟩, hruns⟩
    · rename_i hscripts
      simp only [if_neg hscripts]
      exact ⟨[], ⟨nSpendHeight, hheight, hchecked, rfl⟩, by rw [hcalls]⟩

/-! ## The loop -/

/-- **One round** does the same. -/
theorem TxEffect.alike (hheader : block.toCBlockHeader = block'.toCBlockHeader) (h : a.Alike b)
    {i : Nat} (heff : TxEffect env block' state pindex (b, i) s s') :
    TxEffect env block state pindex (a, i) s s' := by
  have hflags : connectFlags env block pindex.pprev = connectFlags env block' pindex.pprev := by
    rw [connectFlags, connectFlags, hheader]
  have hspendable :
    checkSpendable env a state s.view pindex = checkSpendable env b state s.view pindex :=
    h.congr (f := fun tx => checkSpendable env tx state s.view pindex) fun _ => rfl
  have htally : tallyTx env a s = tallyTx env b s :=
    h.congr (f := fun tx => tallyTx env tx s) fun _ => rfl
  have hminted : mintedBy a pindex.nHeight = mintedBy b pindex.nHeight :=
    h.congr (f := fun tx => mintedBy tx pindex.nHeight) fun _ => rfl
  have hupdate : updateCoins (env.txHash a) a s.view pindex.nHeight =
      updateCoins (env.txHash b) b s.view pindex.nHeight :=
    h.congr (f := fun tx => updateCoins (env.txHash tx) tx s.view pindex.nHeight) fun _ => rfl
  have hspend : spendRows env a i s.view pindex.nHeight = spendRows env b i s.view pindex.nHeight :=
    h.congr (f := fun tx => spendRows env tx i s.view pindex.nHeight) fun _ => rfl
  have hreceive : receiveRows env a i pindex.nHeight = receiveRows env b i pindex.nHeight :=
    h.congr (f := fun tx => receiveRows env tx i pindex.nHeight) fun _ => rfl
  have hdividend : dividendOf a = dividendOf b := h.congr (f := dividendOf) fun _ => rfl
  obtain ⟨hs, hc, ht, hm, hu, hr, hd⟩ := heff
  refine ⟨?_, ?_, ?_, ?_, ?_, ?_, ?_⟩
  · rw [h.isCoinBase, hspendable]
    exact hs
  · rw [hflags, getTransactionSigOpCost_alike h]
    exact hc
  · rw [htally]
    exact ht
  · rw [hminted]
    exact hm
  · rw [hupdate]
    exact hu
  · rw [hspend, hreceive]
    exact hr
  · rw [hdividend]
    exact hd

theorem forall₂_zipIdx {α : Type} {R : α → α → Prop} {l l' : List α} (h : List.Forall₂ R l l') :
    ∀ k : Nat, List.Forall₂ (fun x y => R x.1 y.1 ∧ x.2 = y.2) (l.zipIdx k) (l'.zipIdx k) := by
  induction h with
  | nil => exact fun _ => .nil
  | cons hhead _ ih => exact fun k => .cons ⟨hhead, rfl⟩ (ih (k + 1))

/-- **The loop** runs the same way. -/
theorem BlockRun.alike (hblind : WitnessBlind env)
    (hheader : block.toCBlockHeader = block'.toCBlockHeader) {txs txs' : List (CTransaction × Nat)}
    (h : List.Forall₂ (fun x y => CTransaction.Alike x.1 y.1 ∧ x.2 = y.2) txs txs')
    (hrun : BlockRun env block' state pindex txs' s s' cs') :
    ∃ cs, BlockRun env block state pindex txs s s' cs ∧
      cs.map (CScriptCheck.run env) = cs'.map (CScriptCheck.run env) := by
  have hflags : connectFlags env block pindex.pprev = connectFlags env block' pindex.pprev := by
    rw [connectFlags, connectFlags, hheader]
  induction hrun generalizing txs with
  | nil s =>
    cases h
    exact ⟨[], .nil s, rfl⟩
  | @cons txi' _ _ _ _ _ _ hin heff _ ih =>
    cases h with
    | @cons txi _ _ _ hhead htail =>
      obtain ⟨tx, i⟩ := txi
      obtain ⟨tx', i'⟩ := txi'
      obtain ⟨halike, hi⟩ := hhead
      cases hi
      obtain ⟨cs, hcs, hruns⟩ := hin.alike hblind halike
      obtain ⟨rest, hrest, hruns'⟩ := ih htail
      refine ⟨cs ++ rest, .cons ?_ (heff.alike hheader halike) hrest, ?_⟩
      · rw [hflags]
        exact hcs
      · rw [map_append, map_append, hruns, hruns']

end

/-! ## Blocks -/

/-- What is left of a block without its witnesses, its signature and its mark. -/
def CBlock.bare (block : CBlock) : CBlock :=
  { block.stripped with vchBlockSig := [], fChecked := false }

section

variable (env : Env) (block : CBlock) (state : CValidationState)

theorem bare_isProofOfStake : block.bare.isProofOfStake = block.isProofOfStake :=
  block.stripped_isProofOfStake

theorem checkStake_bare (pprev : PrevChain) :
    checkStake env block.bare state pprev = checkStake env block state pprev := by
  have hproof : blockProof env block.bare state pprev = blockProof env block state pprev := by
    rw [blockProof, blockProof, bare_isProofOfStake]
    have hsecond : block.bare.vtx[1]? = block.vtx[1]?.map stripped := getElem?_map
    rw [hsecond]
    cases block.vtx[1]? <;> rfl
  rw [checkStake, checkStake, hproof, bare_isProofOfStake]
  rfl

theorem checkBIP30_bare (pindex : BlockPlace) (view : CCoinsView) :
    checkBIP30 env block.bare state pindex view = checkBIP30 env block state pindex view := by
  show rejectIf (_ && (block.vtx.map stripped).any _) _ = _
  rw [any_map]
  rfl

theorem checkReward_bare (nHeight : Nat) (s : ConnectState) :
    checkReward env block.bare state nHeight s = checkReward env block state nHeight s := by
  have hsecond : block.bare.vtx[1]? = block.vtx[1]?.map stripped := getElem?_map
  have hfirst : block.bare.vtx.head? = block.vtx.head?.map stripped := head?_map
  rw [checkReward, checkReward, bare_isProofOfStake, hsecond, hfirst]
  cases block.vtx[1]? <;> cases block.vtx.head? <;> rfl

end

/-- One header, and transactions that are alike. -/
structure CBlock.Alike (a b : CBlock) : Prop where
  header : a.toCBlockHeader = b.toCBlockHeader
  vtx : List.Forall₂ CTransaction.Alike a.vtx b.vtx

theorem CBlock.Alike.bare {a b : CBlock} (h : a.Alike b) : a.bare = b.bare := by
  rw [CBlock.bare, CBlock.bare, CBlock.stripped, CBlock.stripped,
    map_eq_map_iff.mpr (h.vtx.imp fun _ _ htx => htx.stripped), h.header]

section

variable (hblind : WitnessBlind env) (h : block.Alike block')
  (hcheck : checkBlock env block state true true = .ok ())
include hblind h hcheck

/-- Everything but `CheckBlock` and the scripts. -/
theorem PassesButScripts.alike (hpass : PassesButScripts env block' state pindex view false s cs') :
    ∃ cs, PassesButScripts env block state pindex view false s cs ∧
      cs.map (CScriptCheck.run env) = cs'.map (CScriptCheck.run env) := by
  obtain ⟨cs, hrun, hruns⟩ := hpass.run.alike hblind h.header (forall₂_zipIdx h.vtx 0)
  have hbare := h.bare
  refine ⟨cs, ⟨hcheck, hpass.best, ?_, ?_, hrun, ?_⟩, hruns⟩
  · rw [← checkStake_bare, hbare, checkStake_bare]
    exact hpass.stake
  · rw [← checkBIP30_bare, hbare, checkBIP30_bare]
    exact hpass.bip30
  · rw [← checkReward_bare, hbare, checkReward_bare]
    exact hpass.reward

/-- **The block.** What can be connected can be connected alike, if `CheckBlock` does not object. -/
theorem connectBlock_alike {n : Nat} {r' : Connected}
    (hconnect : connectBlock env n block' state pindex view false = .ok r') :
    ∃ r, connectBlock env n block state pindex view false = .ok r := by
  have hhash : env.blockHash block = env.blockHash block' := by
    rw [Env.blockHash, Env.blockHash, h.header]
  have hproof : ∀ proof, checkStake env block' state pindex.pprev = .ok proof →
      checkStake env block state pindex.pprev = .ok proof := by
    intro proof hstake
    rw [← checkStake_bare, h.bare, checkStake_bare]
    exact hstake
  by_cases hgen : env.blockHash block = env.consensus.hashGenesisBlock
  · -- Genesis is let through after the first two checks.
    simp only [connectBlock, bind_eq_ok, exists_unit, failIf_eq_ok] at hconnect ⊢
    obtain ⟨-, hbest, -⟩ := hconnect
    rw [if_pos hgen]
    exact ⟨_, hcheck, hbest, rfl⟩
  · have hgen' : env.blockHash block' ≠ env.consensus.hashGenesisBlock := by rwa [← hhash]
    obtain ⟨proof, s, cs', q, hstake, hpass, hset, -⟩ := (connectBlock_eq_ok hgen').mp hconnect
    obtain ⟨cs, hpass, hruns⟩ := hpass.alike hblind h hcheck
    have hall : (n ≠ 0 : Bool) = false → ∀ c ∈ cs, c.run env = .ok () := fun hn => by
      have hmap : ∀ v ∈ cs.map (CScriptCheck.run env), v = .ok () := by
        rw [hruns]
        exact forall_mem_map.mpr (exists_settled.mp ⟨q, hset⟩ hn)
      exact forall_mem_map.mp hmap
    obtain ⟨q', hset'⟩ : ∃ q', Settled env (n ≠ 0) cs [] q' := exists_settled.mpr hall
    exact ⟨_, (connectBlock_eq_ok hgen).mpr ⟨proof, s, cs, q', hproof proof hstake, hpass, hset', rfl⟩⟩

end

end Chratos
