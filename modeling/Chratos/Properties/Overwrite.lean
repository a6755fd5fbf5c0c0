import Chratos.Consensus.Stripped
import Chratos.Consensus.Tip
import Chratos.Properties.UndoConnect
import Chratos.Script.ScriptNum

/-!
# Chratos — transactions that overwrite others (`main.cpp`: the BIP30 and BIP34 rules)

`UpdateCoins` starts the entry of a transaction from nothing. If an earlier transaction of the same
id has unspent outputs, they are gone. The rule against it (BIP30) is asked of blocks whose index
entry has no hash, which no block that is connected lacks; what is left is the height in the
coinbase (BIP34), asked of blocks of version 2 and more once such blocks are in the majority.

A transaction with inputs cannot be repeated as long as no id has been: the first of the two has
spent what the second would spend. `CCoinsView.Grown` is that argument as an invariant of the coins
and the transactions confirmed so far:

`no_overwrite` is the law for those chains, `coinbase_ne_of_height` what the height rule does for
them, and `coinbase_repeated` two blocks before the rule that break it.
-/

namespace Chratos

open Outcome List CTransaction Option ScriptNum

variable {view view' : CCoinsView} {hash256 : List UInt8 → Uint256} {log : List CTransaction}
  {tx : CTransaction} {nHeight n : Nat} {undo : CTxUndo} {env : Env}

/-! ## Chains -/

/-- The three checks pass for a block other than genesis, and connecting it gives `r`. The
transactions are as the deserialiser makes them. -/
structure ConnectCall.Accepted (hash256 : List UInt8 → Uint256) (view : CCoinsView)
    (call : ConnectCall) (r : Connected) : Prop where
  hash256_eq : call.env.hash256 = hash256
  not_genesis : call.env.blockHash call.block ≠ call.env.consensus.hashGenesisBlock
  onWire : ∀ tx ∈ call.block.vtx, tx.OnWire
  check : checkBlock call.env { call.block with fChecked := false } call.state true true = .ok ()
  contextual : contextualCheckBlock call.env call.block call.state call.pindex.pprev = .ok ()
  connect : call.run view = .ok r

/-- The blocks above genesis, from the tip down, and the coins they leave. -/
inductive AcceptedChain (hash256 : List UInt8 → Uint256) : List CBlock → CCoinsView → Prop
  | genesis (hashGenesisBlock : Uint256) :
      AcceptedChain hash256 [] (ChainState.start hashGenesisBlock).view
  | connect {blocks : List CBlock} {view : CCoinsView} {call : ConnectCall} {r : Connected}
      (below : AcceptedChain hash256 blocks view) (accepted : call.Accepted hash256 view r) :
      AcceptedChain hash256 (call.block :: blocks) r.view

/-- The transactions of a chain, the last confirmed first. -/
def chainTxs (blocks : List CBlock) : List CTransaction := blocks.flatMap (·.vtx.reverse)

/-- No two of the transactions share an id, witnesses aside. -/
def TxidsInjective (hash256 : List UInt8 → Uint256) (txs : List CTransaction) : Prop :=
  ∀ a ∈ txs, ∀ b ∈ txs, a.getHash hash256 = b.getHash hash256 → a.serialize false = b.serialize false

/-- No block has the coinbase of another, witnesses aside. -/
def CoinbasesDiffer (blocks : List CBlock) : Prop :=
  (blocks.map fun block => block.vtx.head?.map stripped).Nodup

/-- Whenever a transaction is added, after its inputs were spent, its id has no unspent output. -/
def NoOverwrite (env : Env) (nHeight : Nat) (view : CCoinsView) (vtx : List CTransaction) : Prop :=
  ∀ (before after : List CTransaction) (tx : CTransaction) (u : CCoinsView × CBlockUndo)
    (spent : CCoinsView) (undo : CTxUndo), vtx = before ++ tx :: after →
    before.zipIdx.foldlM (connectCoins env nHeight) (view, []) = .ok u →
    spendInputs u.1 tx = .ok (spent, undo) →
    ∀ n, (spent.coins (env.txHash tx)).isAvailable n = false

/-! ## The invariant -/

/-- The coins after the transactions of `log`, the last confirmed first: no id was used twice,
everything unspent comes from the log, and so does everything spent, which is not there any more. -/
structure CCoinsView.Grown (hash256 : List UInt8 → Uint256) (log : List CTransaction)
    (view : CCoinsView) : Prop where
  nodup : (log.map (getHash hash256)).Nodup
  known : ∀ txid n, (view.coins txid).isAvailable n = true → txid ∈ log.map (getHash hash256)
  source : ∀ tx ∈ log, tx.isCoinBase = false → ∀ i ∈ tx.vin,
    i.prevout.hash ∈ log.map (getHash hash256)
  spent : ∀ tx ∈ log, tx.isCoinBase = false → ∀ i ∈ tx.vin,
    (view.coins i.prevout.hash).isAvailable i.prevout.n.toNat = false

namespace CCoinsView.Grown

theorem start (hashGenesisBlock : Uint256) :
    (ChainState.start hashGenesisBlock).view.Grown hash256 [] :=
  ⟨nodup_nil, fun _ _ h => (by cases h), nofun, nofun⟩

/-- An id that is not in the log has nothing unspent. -/
theorem isAvailable_eq_false (h : view.Grown hash256 log) {txid : Uint256}
    (hnew : txid ∉ log.map (getHash hash256)) (n : Nat) :
    (view.coins txid).isAvailable n = false := by
  rw [Bool.eq_false_iff]
  intro hav
  exact hnew (h.known txid n hav)

/-- **Applying a transaction needs a new id.** A transaction of the same id would have the same
inputs, and they would be spent. -/
theorem fresh (h : view.Grown hash256 log) (hvin : tx.vin ≠ [])
    (hsame : ∀ x ∈ log, x.getHash hash256 = tx.getHash hash256 → x.vin = tx.vin)
    (hcb : tx.isCoinBase = true → tx.getHash hash256 ∉ log.map (getHash hash256))
    (hup : updateCoins (tx.getHash hash256) tx view nHeight = .ok (view', undo)) :
    tx.getHash hash256 ∉ log.map (getHash hash256) := by
  cases htx : tx.isCoinBase with
  | true => exact hcb htx
  | false =>
    intro hmem
    obtain ⟨x, hx, hid⟩ := mem_map.mp hmem
    have hins : x.vin = tx.vin := hsame x hx hid
    have hxcb : x.isCoinBase = false := by
      rw [isCoinBase, hins]
      exact htx
    obtain ⟨i, hi⟩ := exists_mem_of_ne_nil _ hvin
    have hav := updateCoins_input_isAvailable htx hup i hi
    rw [h.spent x hx hxcb i (hins ▸ hi)] at hav
    cases hav

/-- **One more transaction**, of an id the chain does not have. -/
theorem updateCoins (h : view.Grown hash256 log)
    (hnew : tx.getHash hash256 ∉ log.map (getHash hash256))
    (hup : updateCoins (tx.getHash hash256) tx view nHeight = .ok (view', undo)) :
    view'.Grown hash256 (tx :: log) := by
  -- What is unspent under another id was so before, and the transaction has not spent it.
  have hback : ∀ {txid : Uint256} {n : Nat}, txid ≠ tx.getHash hash256 →
      (view'.coins txid).isAvailable n = true → (view.coins txid).isAvailable n = true ∧
        (tx.isCoinBase = false → ∀ i ∈ tx.vin, ¬(txid = i.prevout.hash ∧ n = i.prevout.n.toNat)) :=
    fun hne hav => updateCoins_isAvailable hup hne hav
  have hsource : tx.isCoinBase = false → ∀ i ∈ tx.vin,
      i.prevout.hash ∈ log.map (getHash hash256) := fun htx i hi =>
    h.known _ _ (updateCoins_input_isAvailable htx hup i hi)
  have hne : ∀ {txid : Uint256}, txid ∈ log.map (getHash hash256) →
      txid ≠ tx.getHash hash256 := fun hmem heq => hnew (heq ▸ hmem)
  refine ⟨nodup_cons.mpr ⟨hnew, h.nodup⟩, ?_, ?_, ?_⟩
  · intro txid n hav
    rw [map_cons, mem_cons]
    by_cases hid : txid = tx.getHash hash256
    · exact .inl hid
    · exact .inr (h.known txid n (hback hid hav).1)
  · rw [forall_mem_cons]
    refine ⟨fun htx i hi => mem_cons_of_mem _ (hsource htx i hi), ?_⟩
    intro x hx hxcb i hi
    exact mem_cons_of_mem _ (h.source x hx hxcb i hi)
  · rw [forall_mem_cons]
    constructor
    · intro htx i hi
      rw [Bool.eq_false_iff]
      intro hav
      exact (hback (hne (hsource htx i hi)) hav).2 htx i hi ⟨rfl, rfl⟩
    · intro x hx hxcb i hi
      rw [Bool.eq_false_iff]
      intro hav
      have hold := (hback (hne (h.source x hx hxcb i hi)) hav).1
      rw [h.spent x hx hxcb i hi] at hold
      cases hold

end CCoinsView.Grown

/-! ## A block -/

/-- What is asked of the transactions of a block on top of a log: they have inputs, an id stands for
one list of inputs, and only the first is a coinbase, of a new id. -/
structure Addition (hash256 : List UInt8 → Uint256) (log : List CTransaction)
    (vtx : List CTransaction) : Prop where
  vin_ne : ∀ tx ∈ vtx, tx.vin ≠ []
  vin_eq : ∀ x ∈ vtx.reverse ++ log, ∀ tx ∈ vtx, x.getHash hash256 = tx.getHash hash256 →
    x.vin = tx.vin
  coinbase : ∀ txi ∈ vtx.zipIdx, txi.1.isCoinBase = true → txi.2 = 0
  coinbase_new : ∀ tx ∈ vtx, tx.isCoinBase = true → tx.getHash hash256 ∉ log.map (getHash hash256)

section

variable {vtx : List CTransaction}

theorem Addition.dropLast (h : Addition hash256 log (vtx ++ [tx])) : Addition hash256 log vtx where
  vin_ne := fun x hx => h.vin_ne x (mem_append_left _ hx)
  vin_eq := fun x hx y hy => h.vin_eq x (by
    rw [reverse_append, append_assoc]
    exact mem_append_right _ hx) y (mem_append_left _ hy)
  coinbase := fun txi htxi => h.coinbase txi (by
    rw [zipIdx_append]
    exact mem_append_left _ htxi)
  coinbase_new := fun x hx => h.coinbase_new x (mem_append_left _ hx)

/-- The last transaction of an addition has a new id. -/
theorem Addition.fresh {u : CCoinsView}
    (h : Addition env.hash256 log (vtx ++ [tx])) (hu : u.Grown env.hash256 (vtx.reverse ++ log))
    (hup : updateCoins (env.txHash tx) tx u nHeight = .ok (view', undo)) :
    env.txHash tx ∉ (vtx.reverse ++ log).map (getHash env.hash256) := by
  refine hu.fresh (h.vin_ne tx (by simp)) ?_ ?_ hup
  · intro x hx
    refine h.vin_eq x ?_ tx (by simp)
    rw [reverse_append, append_assoc]
    exact mem_append_right _ hx
  · -- A coinbase comes first, so only the log is below it.
    intro htx
    have hzero : vtx.length = 0 := h.coinbase (tx, vtx.length) (by simp [zipIdx_append]) htx
    rw [eq_nil_of_length_eq_zero hzero]
    exact h.coinbase_new tx (by simp) htx

/-- **All transactions of a block.** -/
theorem CCoinsView.Grown.connectCoins (h : Addition env.hash256 log vtx)
    (hview : view.Grown env.hash256 log) {t : CCoinsView × CBlockUndo}
    (hloop : vtx.zipIdx.foldlM (Chratos.connectCoins env nHeight) (view, []) = .ok t) :
    t.1.Grown env.hash256 (vtx.reverse ++ log) := by
  induction vtx using reverseRecOn generalizing t with
  | nil =>
    cases hloop
    exact hview
  | append_singleton vtx tx ih =>
    obtain ⟨u, undo, hfront, hup, -⟩ := connectCoins_concat hloop
    have hu := ih h.dropLast hfront
    have hnext := hu.updateCoins (h.fresh hu hup) hup
    rw [reverse_append, append_assoc]
    exact hnext

/-- Cutting an addition short. -/
theorem Addition.of_append {before after : List CTransaction}
    (h : Addition hash256 log (before ++ after)) : Addition hash256 log before := by
  induction after using reverseRecOn with
  | nil => simpa using h
  | append_singleton after tx ih =>
    rw [← append_assoc] at h
    exact ih h.dropLast

theorem Addition.noOverwrite (h : Addition env.hash256 log vtx)
    (hview : view.Grown env.hash256 log) : NoOverwrite env nHeight view vtx := by
  intro before after tx u spent undo hvtx hfront hspent n
  have hall : Addition env.hash256 log (before ++ [tx] ++ after) := by
    rw [append_assoc, singleton_append, ← hvtx]
    exact h
  have hpart := hall.of_append
  have hu := CCoinsView.Grown.connectCoins hpart.dropLast hview hfront
  have hup : updateCoins (env.txHash tx) tx u.1 nHeight = .ok
      (spent.modifyNewCoins (env.txHash tx) (fun _ => CCoins.fromTx tx nHeight), undo) := by
    rw [updateCoins, hspent]
    rfl
  rw [Bool.eq_false_iff]
  intro hav
  have hold := (spendInputs_isAvailable hspent hav).1
  rw [hu.isAvailable_eq_false (hpart.fresh hu hup)] at hold
  cases hold

end

/-! ## A chain -/

section

variable {blocks : List CBlock} {call : ConnectCall} {r : Connected}

theorem ConnectCall.Accepted.checkedBlock (h : call.Accepted hash256 view r) :
    CheckedBlock call.block := by
  have hblock := checkBlock_spec rfl h.check
  exact ⟨hblock.shape, hblock.stake, hblock.size_le, hblock.txs⟩

/-- Every transaction of a chain came off the wire, and its coinbases are first in their blocks. -/
theorem AcceptedChain.onWire (h : AcceptedChain hash256 blocks view) :
    ∀ tx ∈ chainTxs blocks, tx.OnWire := by
  induction h with
  | genesis => nofun
  | connect below accepted ih =>
    intro tx htx
    rw [chainTxs, flatMap_cons, mem_append, mem_reverse] at htx
    rcases htx with htx | htx
    · exact accepted.onWire tx htx
    · exact ih tx htx

/-- The coinbase of a block that passed `CheckBlock` is its first transaction. -/
theorem CheckedBlock.head?_eq {block : CBlock} (h : CheckedBlock block) (htx : tx ∈ block.vtx)
    (hcb : tx.isCoinBase = true) : block.vtx.head? = some tx := by
  obtain ⟨coinbase, rest, hvtx, -, hrest⟩ := h.shape
  rw [hvtx, mem_cons] at htx
  rcases htx with rfl | htx
  · rw [hvtx, head?_cons]
  · rw [hrest tx htx] at hcb
    cases hcb

theorem AcceptedChain.coinbase (h : AcceptedChain hash256 blocks view) :
    ∀ tx ∈ chainTxs blocks, tx.isCoinBase = true → ∃ block ∈ blocks, block.vtx.head? = some tx := by
  induction h with
  | genesis => nofun
  | connect below accepted ih =>
    rename_i call r
    intro tx htx hcb
    rw [chainTxs, flatMap_cons, mem_append, mem_reverse] at htx
    rcases htx with htx | htx
    · exact ⟨call.block, mem_cons_self, accepted.checkedBlock.head?_eq htx hcb⟩
    · obtain ⟨block, hblock, hhead⟩ := ih tx htx hcb
      exact ⟨block, mem_cons_of_mem _ hblock, hhead⟩

/-- An accepted block is an addition to the chain below, if it brings a coinbase of its own. -/
theorem ConnectCall.Accepted.addition (h : call.Accepted hash256 view r)
    (hchain : AcceptedChain hash256 blocks view)
    (hinj : TxidsInjective hash256 (chainTxs (call.block :: blocks)))
    (hcb : CoinbasesDiffer (call.block :: blocks)) :
    Addition hash256 (chainTxs blocks) call.block.vtx := by
  have hblock := h.checkedBlock
  have hwire := (hchain.connect h).onWire
  have hmem : ∀ tx ∈ call.block.vtx, tx ∈ chainTxs (call.block :: blocks) := fun tx htx => by
    rw [chainTxs, flatMap_cons, mem_append, mem_reverse]
    exact .inl htx
  have hstripped : ∀ x ∈ chainTxs (call.block :: blocks), ∀ y ∈ chainTxs (call.block :: blocks),
      x.getHash hash256 = y.getHash hash256 → x.stripped = y.stripped := fun x hx y hy heq =>
    (hwire x hx).stripped_eq (hwire y hy) (hinj x hx y hy heq)
  refine ⟨fun tx htx => (hblock.txs tx htx).vin_ne, ?_,
    fun txi htxi => (hblock.coinbase_iff txi htxi).mp, ?_⟩
  · intro x hx tx htx heq
    have hsame := hstripped x hx tx (hmem tx htx) heq
    rw [← stripped_vin, hsame, stripped_vin]
  · intro tx htx htxcb hin
    obtain ⟨x, hx, hid⟩ := mem_map.mp hin
    have hx' : x ∈ chainTxs (call.block :: blocks) := mem_append_right _ hx
    have hsame := hstripped x hx' tx (hmem tx htx) hid
    have hxcb : x.isCoinBase = true := by
      rw [← stripped_isCoinBase, hsame, stripped_isCoinBase, htxcb]
    -- Both come first in their blocks, and these coinbases differ.
    obtain ⟨block, hin, hhead⟩ := hchain.coinbase x hx hxcb
    have hfirst := hblock.head?_eq htx htxcb
    rw [CoinbasesDiffer, map_cons, nodup_cons] at hcb
    refine hcb.1 (mem_map.mpr ⟨block, hin, ?_⟩)
    rw [hhead, hfirst, map_some, map_some, hsame]

/-- **The run lemma**: the view of an accepted chain has grown from its transactions. -/
theorem AcceptedChain.grown (h : AcceptedChain hash256 blocks view)
    (hinj : TxidsInjective hash256 (chainTxs blocks)) (hcb : CoinbasesDiffer blocks) :
    view.Grown hash256 (chainTxs blocks) := by
  induction h with
  | genesis hashGenesisBlock => exact .start hashGenesisBlock
  | connect below accepted ih =>
    rename_i blocks view call r
    have hview : view.Grown hash256 (chainTxs blocks) := by
      apply ih
      · intro a ha b hb
        exact hinj a (mem_append_right _ ha) b (mem_append_right _ hb)
      · exact (nodup_cons.mp hcb).2
    have hadd := accepted.addition below hinj hcb
    obtain ⟨proof, s, cs, q, hpass, hr⟩ := connectBlock_spec accepted.not_genesis accepted.connect
    have hhash := accepted.hash256_eq
    subst hhash
    have hgrown := CCoinsView.Grown.connectCoins hadd hview hpass.run.connectCoins
    rw [hr]
    exact ⟨hgrown.nodup, hgrown.known, hgrown.source, hgrown.spent⟩

/-- **No unspent output is overwritten**, in any block of a chain without a repeated coinbase. -/
theorem no_overwrite (hchain : AcceptedChain hash256 blocks view)
    (haccepted : call.Accepted hash256 view r)
    (hinj : TxidsInjective hash256 (chainTxs (call.block :: blocks)))
    (hcb : CoinbasesDiffer (call.block :: blocks)) :
    NoOverwrite call.env call.pindex.nHeight view call.block.vtx := by
  have hview : view.Grown hash256 (chainTxs blocks) := by
    apply hchain.grown
    · intro a ha b hb
      exact hinj a (mem_append_right _ ha) b (mem_append_right _ hb)
    · exact (nodup_cons.mp hcb).2
  have hadd := haccepted.addition hchain hinj hcb
  have hhash := haccepted.hash256_eq
  subst hhash
  exact hadd.noOverwrite hview

end

/-! ## What the height rule contributes

Two blocks that are both under the rule cannot have one coinbase: it would begin with two heights. A
coinbase from before the rule can begin with any height. -/

theorem leDigits_eq (fuel n : Nat) : leDigits fuel n = ScriptNum.absBytes fuel n := by
  induction fuel generalizing n with
  | zero => rfl
  | succ fuel ih => rw [leDigits, absBytes, ih]

theorem scriptNum_eq (n : Nat) : scriptNum n = ScriptNum.serialize n := by
  rw [scriptNum, ScriptNum.serialize, leDigits_eq, Int.natAbs_natCast]
  rcases eq_nil_or_concat' (absBytes 8 n) with hnil | ⟨init, back, heq⟩
  · rw [hnil]
    rfl
  · simp [heq, signBit_iff, UInt8.le_iff_toNat_le, not_lt.mpr (Int.natCast_nonneg n)]

theorem setVch_scriptNum (h : n < 2 ^ 64) : ScriptNum.setVch (scriptNum n) = n := by
  rw [scriptNum_eq]
  exact (serialize_spec (n := n) (by omega)).2

theorem length_scriptNum_le (n : Nat) : (scriptNum n).length ≤ 9 :=
  scriptNum_eq n ▸ length_serialize n

theorem length_scriptNum_pos (hpos : 0 < n) (h : n < 2 ^ 64) : 0 < (scriptNum n).length := by
  have hread := setVch_scriptNum h
  refine length_pos_iff.mpr fun hnil => ?_
  rw [hnil] at hread
  exact hpos.ne (Int.natCast_inj.mp hread)

/-- The first byte of a height: a small height itself, or the length of what follows. -/
theorem pushHeight_head (n : Nat) : ∃ first rest, pushHeight n = first :: rest ∧
    ((n ≤ 16 ∧ first.toNat = (if n = 0 then 0 else n + 0x50) ∧ rest = []) ∨
      (16 < n ∧ first.toNat = (scriptNum n).length ∧ rest = scriptNum n)) := by
  unfold pushHeight
  split
  · rename_i hzero
    exact ⟨0, [], rfl, .inl ⟨by omega, rfl, rfl⟩⟩
  split
  · rename_i hzero hsmall
    refine ⟨_, [], rfl, .inl ⟨hsmall, ?_, rfl⟩⟩
    exact Nat.mod_eq_of_lt (by omega)
  · rename_i hzero hlarge
    refine ⟨_, _, rfl, .inr ⟨by omega, ?_, rfl⟩⟩
    have hlength := length_scriptNum_le n
    exact Nat.mod_eq_of_lt (by omega)

/-- **A script begins with one height at most.** -/
theorem pushHeight_inj {a b : Nat} (ha : a < 2 ^ 64) (hb : b < 2 ^ 64) {script : CScript}
    (hpa : pushHeight a <+: script) (hpb : pushHeight b <+: script) : a = b := by
  obtain ⟨first, rest, hea, hca⟩ := pushHeight_head a
  obtain ⟨first', rest', heb, hcb⟩ := pushHeight_head b
  rw [hea] at hpa
  rw [heb] at hpb
  obtain ⟨s, hs⟩ := hpa
  obtain ⟨s', hs'⟩ := hpb
  rw [← hs', cons_append, cons_append] at hs
  obtain ⟨hfirst, htail⟩ := cons.inj hs
  rw [hfirst] at hca
  rcases hca with ⟨hsmall, hval, -⟩ | ⟨hlarge, hval, hrest⟩
  · rcases hcb with ⟨hsmall', hval', -⟩ | ⟨hlarge', hval', -⟩
    · rw [hval] at hval'
      split at hval' <;> split at hval' <;> omega
    · -- A length is neither zero nor one of the small-number opcodes.
      have hlength := length_scriptNum_pos (show 0 < b by omega) hb
      have hle := length_scriptNum_le b
      rw [hval] at hval'
      split at hval' <;> omega
  · rcases hcb with ⟨hsmall', hval', -⟩ | ⟨hlarge', hval', hrest'⟩
    · have hlength := length_scriptNum_pos (show 0 < a by omega) ha
      have hle := length_scriptNum_le a
      split at hval' <;> omega
    · have hlength : (scriptNum a).length = (scriptNum b).length := by rw [← hval, hval']
      rw [hrest, hrest'] at htail
      have hdigits := append_inj_left htail hlength
      rw [← Int.natCast_inj, ← setVch_scriptNum ha, ← setVch_scriptNum hb, hdigits]

section

variable {env' : Env} {block block' : CBlock} {state state' : CValidationState}
  {pindexPrev pindexPrev' : CBlockIndex} {chain chain' : PrevChain}

/-- The coinbase of an accepted block under the rule begins with the block's height. -/
theorem contextualCheckBlock_height
    (h : contextualCheckBlock env block state (pindexPrev :: chain) = .ok ())
    (hversion : 2 ≤ block.nVersion)
    (hmajority : isSuperMajority env.consensus 2 (pindexPrev :: chain) = true) :
    ∃ coinbase, block.vtx.head? = some coinbase ∧ ∃ i, coinbase.vin.head? = some i ∧
      pushHeight (pindexPrev.nHeight + 1) <+: i.scriptSig := by
  simp only [contextualCheckBlock, bind_eq_ok, orAssert_eq_ok, rejectIf_eq_ok, exists_unit] at h
  obtain ⟨-, coinbase, hcoinbase, hheight, -⟩ := h
  refine ⟨coinbase, hcoinbase, ?_⟩
  rw [decide_eq_true hversion, hmajority, Bool.true_and, Bool.true_and, Bool.not_eq_false',
    Option.any_eq_true] at hheight
  obtain ⟨i, hi, hprefix⟩ := hheight
  exact ⟨i, hi, isPrefixOf_iff_prefix.mp hprefix⟩

/-- **Coinbases under the rule differ**, at different heights. -/
theorem coinbase_ne_of_height (hlt : pindexPrev.nHeight < 2 ^ 31) (hlt' : pindexPrev'.nHeight < 2 ^ 31)
    (hne : pindexPrev.nHeight ≠ pindexPrev'.nHeight)
    (h : contextualCheckBlock env block state (pindexPrev :: chain) = .ok ())
    (h' : contextualCheckBlock env' block' state' (pindexPrev' :: chain') = .ok ())
    (hversion : 2 ≤ block.nVersion) (hversion' : 2 ≤ block'.nVersion)
    (hmajority : isSuperMajority env.consensus 2 (pindexPrev :: chain) = true)
    (hmajority' : isSuperMajority env'.consensus 2 (pindexPrev' :: chain') = true) :
    block.vtx.head?.map stripped ≠ block'.vtx.head?.map stripped := by
  obtain ⟨coinbase, hhead, i, hi, hprefix⟩ := contextualCheckBlock_height h hversion hmajority
  obtain ⟨coinbase', hhead', i', hi', hprefix'⟩ :=
    contextualCheckBlock_height h' hversion' hmajority'
  rw [hhead, hhead', map_some, map_some]
  intro heq
  have hvin : coinbase.vin = coinbase'.vin := by
    have hsame := some.inj heq
    rw [← stripped_vin, hsame, stripped_vin]
  rw [hvin, hi'] at hi
  rw [← some.inj hi] at hprefix
  have hheights := pushHeight_inj (by omega) (by omega) hprefix hprefix'
  omega

end

/-! ## Two blocks above genesis -/

/-- A coinbase that can be used at any height. -/
def plainCoinbase (nTime : UInt32) : CTransaction := sampleCoinbase 7 nTime COIN []

/-- A proof-of-work block with a coinbase only, on top of the entries given. -/
def plainCall (pprev : PrevChain) (nTime : UInt32) : ConnectCall where
  env := sampleEnv (pprev.length)
  nScriptCheckThreads := 0
  block := { sampleBlock 0 (1532360945 + 150 * UInt32.ofNat pprev.length) 0x1f00ffff []
      [plainCoinbase nTime] with hashPrevBlock := prevHash pprev }
  state := {}
  pindex := ⟨pprev.length, some (1000 + BitVec.ofNat 256 pprev.length), pprev⟩

/-- One entry of version 2 is a majority. -/
def ruledEnv : Env :=
  { sampleEnv 1 with consensus := { Consensus.Params.main with nMajorityEnforceBlockUpgrade := 1 } }

def ruledBlock (nHeight : Nat) : CBlock :=
  { sampleBlock nHeight 1532376000 0x1f00ffff [] [sampleCoinbase nHeight 1532376000 COIN []] with
    nVersion := 2 }

theorem coinbase_ne_of_height_ruled :
    (ruledBlock 1).vtx.head?.map stripped ≠ (ruledBlock 2).vtx.head?.map stripped :=
  coinbase_ne_of_height (by decide) (by decide) (by decide)
    (show contextualCheckBlock ruledEnv (ruledBlock 1) {}
      [{ sampleIndex 0 with nVersion := 2 }] = .ok ()
      by decide +kernel)
    (show contextualCheckBlock ruledEnv (ruledBlock 2) {}
      [{ sampleIndex 1 with nVersion := 2 }] = .ok ()
      by decide +kernel)
    (by decide) (by decide) (by decide +kernel) (by decide +kernel)

/-- The first block after genesis. -/
def firstCall : ConnectCall := plainCall [sampleIndex 0] 1532361000

/-- The second one, when the first has left `r`. -/
def secondCall (r : Connected) (nTime : UInt32) : ConnectCall :=
  plainCall [r.pindex, sampleIndex 0] nTime

def afterGenesis : CCoinsView := (ChainState.start (sampleIndex 0).hash).view

/-- The checks of `ConnectCall.Accepted`, to be evaluated. -/
def ConnectCall.passes (call : ConnectCall) (view : CCoinsView) : Bool :=
  call.env.blockHash call.block ≠ call.env.consensus.hashGenesisBlock &&
    checkBlock call.env { call.block with fChecked := false } call.state true true = .ok () &&
    contextualCheckBlock call.env call.block call.state call.pindex.pprev = .ok () &&
    accepts (call.run view)

theorem plainCoinbase_onWire (nTime : UInt32) : (plainCoinbase nTime).OnWire := by
  refine ⟨⟨?_, by simp [plainCoinbase, sampleCoinbase], ?_, by
    simp [plainCoinbase, sampleCoinbase], ?_, by simp [plainCoinbase, sampleCoinbase], nofun, nofun⟩,
    fun _ => rfl⟩
  · show IsInt32 2
    decide
  · intro i hi
    rw [mem_singleton.mp hi]
    decide
  · intro o ho
    rw [mem_singleton.mp ho]
    refine ⟨?_, by decide⟩
    decide

theorem plainCall_accepted {pprev : PrevChain} {nTime : UInt32}
    (h : (plainCall pprev nTime).passes view = true) :
    ∃ r, (plainCall pprev nTime).Accepted sampleHash view r := by
  simp only [ConnectCall.passes, Bool.and_eq_true, decide_eq_true_eq] at h
  obtain ⟨⟨⟨hgenesis, hcheck⟩, hcontext⟩, hconnect⟩ := h
  obtain ⟨r, hr⟩ := accepts_iff.mp hconnect
  refine ⟨r, rfl, hgenesis, ?_, hcheck, hcontext, hr⟩
  intro tx htx
  rw [mem_singleton.mp htx]
  exact plainCoinbase_onWire nTime

/-- The chain of the first block, and what can be evaluated about its result. -/
theorem firstChain {p : Connected → Bool}
    (hp : (match firstCall.run afterGenesis with | .ok r => p r | .error _ => false) = true) :
    ∃ r, AcceptedChain sampleHash [firstCall.block] r.view ∧ p r = true := by
  obtain ⟨r, haccepted⟩ := plainCall_accepted
    (show firstCall.passes afterGenesis = true by decide +kernel)
  refine ⟨r, .connect (.genesis (sampleIndex 0).hash) haccepted, ?_⟩
  have hrun : firstCall.run afterGenesis = .ok r := haccepted.connect
  rw [hrun] at hp
  exact hp

/-- Two blocks with coinbases of different times: nothing is overwritten. -/
theorem no_overwrite_second : ∃ r, AcceptedChain sampleHash [firstCall.block] r.view ∧
      NoOverwrite (secondCall r 1532361001).env (secondCall r 1532361001).pindex.nHeight r.view
        (secondCall r 1532361001).block.vtx := by
  obtain ⟨r, hchain, hpasses⟩ := firstChain (p := fun r => (secondCall r 1532361001).passes r.view)
    (by decide +kernel)
  obtain ⟨r', haccepted⟩ := plainCall_accepted hpasses
  refine ⟨r, hchain, no_overwrite hchain haccepted ?_ ?_⟩
  · show TxidsInjective sampleHash [plainCoinbase 1532361001, plainCoinbase 1532361000]
    unfold TxidsInjective
    decide +kernel
  · show List.Nodup [some (plainCoinbase 1532361001).stripped, some (plainCoinbase 1532361000).stripped]
    decide +kernel

/-- Two accepted blocks with the same coinbase: when the second is connected, the output of the first
is unspent and is overwritten. -/
theorem coinbase_repeated : ∃ r r', AcceptedChain sampleHash [firstCall.block] r.view ∧
      (secondCall r 1532361000).Accepted sampleHash r.view r' ∧
      TxidsInjective sampleHash (chainTxs [(secondCall r 1532361000).block, firstCall.block]) ∧
      ¬NoOverwrite (secondCall r 1532361000).env (secondCall r 1532361000).pindex.nHeight r.view
        (secondCall r 1532361000).block.vtx := by
  obtain ⟨r, hchain, hp⟩ := firstChain (p := fun r => (secondCall r 1532361000).passes r.view &&
    (r.view.coins ((plainCoinbase 1532361000).getHash sampleHash)).isAvailable 0) (by decide +kernel)
  obtain ⟨hpasses, hunspent⟩ := Bool.and_eq_true_iff.mp hp
  obtain ⟨r', haccepted⟩ := plainCall_accepted hpasses
  refine ⟨r, r', hchain, haccepted, ?_, ?_⟩
  · show TxidsInjective sampleHash [plainCoinbase 1532361000, plainCoinbase 1532361000]
    unfold TxidsInjective
    decide +kernel
  · intro hnone
    have hgone := hnone [] [] (plainCoinbase 1532361000) (r.view, []) r.view [] rfl rfl rfl 0
    have hid : (secondCall r 1532361000).env.txHash (plainCoinbase 1532361000) =
        (plainCoinbase 1532361000).getHash sampleHash := rfl
    rw [hid, hunspent] at hgone
    cases hgone

end Chratos
