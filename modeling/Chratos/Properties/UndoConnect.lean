import Chratos.Consensus.DisconnectBlock
import Chratos.Properties.CoinsRoundTrip
import Chratos.Properties.Conservation

/-!
# Chratos — disconnecting undoes connecting

A block is connected by `UpdateCoins` on each of its transactions, its undo data go to disk and
come back, and `DisconnectBlock` takes the block back. The view is then what it was, and no
inconsistency is reported: `disconnectBlock_undoes_connect`. One thing is not restored: the
version of an entry whose last output the block spent travels through a `VARINT`, which keeps
seven bits of a negative number. The code knows (`DisconnectBlock` says so in a comment) and
compares around it.

That no id occurs twice in a block need not be assumed (`nodup_of_connectCoins`): a repeated
transaction would find its inputs spent.
-/

namespace Chratos

open Outcome Codec List CCoins CTxInUndo

variable {view : CCoinsView} {nHeight : Nat} {txid : Uint256} {env : Env}
  {t : CCoinsView × CBlockUndo} {block : CBlock} {c : CCoins}

/-! ## No id occurs twice -/

/-- What a transaction spends was there before it. -/
theorem updateCoins_input_isAvailable {tx : CTransaction}
    {view' : CCoinsView} {undo : CTxUndo} (hcb : tx.isCoinBase = false)
    (h : updateCoins txid tx view nHeight = .ok (view', undo)) :
    ∀ i ∈ tx.vin, (view.coins i.prevout.hash).isAvailable i.prevout.n.toNat = true := by
  obtain ⟨spent, hspent, -⟩ := updateCoins_eq_ok h
  rw [spendInputs, if_neg (by simp [hcb])] at hspent
  -- Along the loop: every input so far was available at the start, like all that is now.
  have hloop := foldlM_ok_rec (fun done (s : CCoinsView × CTxUndo) =>
    (∀ t n, (s.1.coins t).isAvailable n = true → (view.coins t).isAvailable n = true) ∧
      ∀ i ∈ done, (view.coins i.prevout.hash).isAvailable i.prevout.n.toNat = true) ?_
    ⟨fun _ _ h => h, forall_mem_nil _⟩ hspent
  · exact hloop.2
  · intro done i s t hs hstep
    obtain ⟨hmono, hdone⟩ := hs
    obtain ⟨o, ho, -, -⟩ := spendInput_eq_ok hstep
    refine ⟨fun t n hav => hmono t n (spendInput_isAvailable hstep hav).1, ?_⟩
    refine forall_mem_append.mpr ⟨hdone, ?_⟩
    rw [forall_mem_singleton]
    exact hmono _ _ (isAvailable_of_output? ho)

section

theorem map_txHash_zipIdx (vtx : List CTransaction) (k : Nat) :
    ((vtx.zipIdx k).map fun txi => env.txHash txi.1) = vtx.map env.txHash := by
  conv_rhs => rw [← zipIdx_map_fst k vtx, map_map]
  rfl

variable {txs : List (CTransaction × Nat)} {s : CCoinsView × CBlockUndo}

/-- What a run has available under an id that was not in use, the run has created. -/
theorem connectCoins_created (h : txs.foldlM (connectCoins env nHeight) s = .ok t)
    {n : Nat} (hfresh : ∀ n, (s.1.coins txid).isAvailable n = false)
    (hav : (t.1.coins txid).isAvailable n = true) : txid ∈ txs.map fun txi => env.txHash txi.1 := by
  by_contra hnew
  have hstart := connectCoins_isAvailable h (fun txi htxi heq =>
    hnew (mem_map.mpr ⟨txi, htxi, heq⟩)) hav
  rw [hfresh] at hstart
  cases hstart

/-- An output spent by a transaction is not there again unless it, or a later transaction, has the
id of the output. -/
theorem connectCoins_spent {txi : CTransaction × Nat}
    (h : (txi :: txs).foldlM (connectCoins env nHeight) s = .ok t) (hcb : txi.1.isCoinBase = false)
    {i : CTxIn} (hi : i ∈ txi.1.vin)
    (hav : (t.1.coins i.prevout.hash).isAvailable i.prevout.n.toNat = true) :
    i.prevout.hash ∈ (txi :: txs).map fun txi => env.txHash txi.1 := by
  by_contra hnew
  rw [map_cons, mem_cons, not_or] at hnew
  rw [foldlM_cons_eq_ok] at h
  obtain ⟨u, hstep, hrest⟩ := h
  obtain ⟨undo, hup, -⟩ := connectCoins_eq_ok hstep
  have hu := connectCoins_isAvailable hrest (fun x hx heq => hnew.2 (mem_map.mpr ⟨x, hx, heq⟩)) hav
  exact (updateCoins_isAvailable hup hnew.1 hu).2 hcb i hi ⟨rfl, rfl⟩

/-- **No id occurs twice** in a block whose transactions can all be applied, if transactions of
one id have the same inputs and no id was in use before. -/
theorem nodup_of_connectCoins {vtx : List CTransaction} (hvin : ∀ tx ∈ vtx, tx.vin ≠ [])
    (hcb : ∀ txi ∈ vtx.zipIdx, txi.1.isCoinBase = true ↔ txi.2 = 0)
    (hhash : ∀ tx ∈ vtx, ∀ tx' ∈ vtx, env.txHash tx = env.txHash tx' → tx.vin = tx'.vin)
    (hfresh : ∀ tx ∈ vtx, ∀ n, (view.coins (env.txHash tx)).isAvailable n = false)
    (hloop : vtx.zipIdx.foldlM (connectCoins env nHeight) (view, []) = .ok t) :
    (vtx.map env.txHash).Nodup := by
  induction vtx using List.reverseRecOn generalizing t with
  | nil => exact nodup_nil
  | append_singleton vtx tx' ih =>
    obtain ⟨c, _, hfront, hup, -⟩ := connectCoins_concat hloop
    have hnodup := ih (fun tx htx => hvin tx (mem_append_left _ htx))
      (fun txi htxi => hcb txi (by rw [zipIdx_concat]; exact mem_append_left _ htxi))
      (fun tx htx tx' htx' => hhash tx (mem_append_left _ htx) tx' (mem_append_left _ htx'))
      (fun tx htx => hfresh tx (mem_append_left _ htx)) hfront
    rw [map_append, nodup_append]
    refine ⟨hnodup, by simp, ?_⟩
    intro _ hmem _ hlast' heq
    subst heq
    rw [map_singleton, mem_singleton] at hlast'
    obtain ⟨tx, htx, hsame⟩ := mem_map.mp hmem
    rw [hlast'] at hsame
    -- The earlier transaction of the same id, with what comes before and after it.
    obtain ⟨front, back, rfl⟩ := append_of_mem htx
    have hins : tx.vin = tx'.vin := hhash tx (by simp) tx' (by simp) hsame
    have hcb' : tx'.isCoinBase = false := by
      rw [Bool.eq_false_iff]
      intro h
      have := (hcb (tx', (front ++ tx :: back).length) (by rw [zipIdx_concat]; simp)).mp h
      simp at this
    have hcbtx : tx.isCoinBase = false := by
      rw [CTransaction.isCoinBase, hins]
      exact hcb'
    obtain ⟨i, hi⟩ := exists_mem_of_ne_nil _ (hvin tx (by simp))
    rw [zipIdx_append, zipIdx_cons, foldlM_append_eq_ok] at hfront
    obtain ⟨a, hbefore, hafter⟩ := hfront
    -- The input is there for both of them.
    have hava : (a.1.coins i.prevout.hash).isAvailable i.prevout.n.toNat = true := by
      rw [foldlM_cons_eq_ok] at hafter
      obtain ⟨b, hstep, -⟩ := hafter
      obtain ⟨_, hup, -⟩ := connectCoins_eq_ok hstep
      exact updateCoins_input_isAvailable hcbtx hup i hi
    have havc := updateCoins_input_isAvailable hcb' hup i (hins ▸ hi)
    -- So its id occurs from the earlier transaction on, and by freshness also before it.
    have hlater : i.prevout.hash ∈ (tx :: back).map env.txHash := by
      have hagain := connectCoins_spent hafter hcbtx hi havc
      rwa [map_cons, map_txHash_zipIdx] at hagain
    have hearlier : i.prevout.hash ∈ front.map env.txHash := by
      obtain ⟨x, hx, hxid⟩ := mem_map.mp hlater
      have hunused := hfresh x (by
        rw [append_assoc]
        exact mem_append_right _ (mem_append_left _ hx))
      rw [hxid] at hunused
      have hmade := connectCoins_created hbefore hunused hava
      rwa [map_txHash_zipIdx] at hmade
    rw [map_append, nodup_append] at hnodup
    exact hnodup.2.2 _ hearlier _ hlater rfl

end

/-! ## Connect and disconnect -/

/-- The first transaction of a checked block is its only coinbase. -/
theorem CheckedBlock.coinbase_iff (h : CheckedBlock block) :
    ∀ txi ∈ block.vtx.zipIdx, txi.1.isCoinBase = true ↔ txi.2 = 0 := by
  obtain ⟨coinbase, rest, hvtx, hcb, hrest⟩ := h.shape
  rw [hvtx, zipIdx_cons]
  refine forall_mem_cons.mpr ⟨by simp [hcb], fun txi htxi => ?_⟩
  have hge := le_snd_of_mem_zipIdx htxi
  rw [hrest txi.1 (fst_mem_of_mem_zipIdx htxi)]
  simp only [Bool.false_eq_true, false_iff]
  omega

theorem CCoins.Sound.vout_eq_nil_of_isPruned (h : c.Sound)
    (hpruned : c.isPruned = true) : c.vout = [] := by
  by_contra hne
  have hlast := rdropWhile_eq_self_iff.mp h.vout_clean hne
  exact hlast (all_eq_true.mp hpruned _ (getLast_mem hne))

/-- Equality as the code compares entries, when only the version may have suffered. -/
theorem CCoins.Same.eqv {c' : CCoins} (h : c.Same c') : c'.eqv c = true ∨
      (c.nVersion < 0 ∧ c'.eqv { c with nVersion := storedVersion c.nVersion } = true) := by
  by_cases hnil : c.vout = []
  · refine .inl ?_
    simp [CCoins.eqv, CCoins.isPruned, h.vout, hnil]
  · have hcb := h.fCoinBase hnil
    have hheight := h.nHeight hnil
    rcases h.nVersion hnil with hv | hv
    · exact .inl (by simp [CCoins.eqv, h.vout, hcb, hheight, hv])
    · by_cases hneg : c.nVersion < 0
      · exact .inr ⟨hneg, by simp [CCoins.eqv, h.vout, hcb, hheight, hv]⟩
      · have hkeep : storedVersion c.nVersion = c.nVersion := if_pos (by omega)
        exact .inl (by simp [CCoins.eqv, h.vout, hcb, hheight, hv, hkeep])

section

variable (hblock : CheckedBlock block) (hversion : ∀ tx ∈ block.vtx, IsInt32 tx.nVersion)
  (hhash : ∀ tx ∈ block.vtx, ∀ tx' ∈ block.vtx, env.txHash tx = env.txHash tx' → tx.vin = tx'.vin)
  (hview : view.Sound) (hunused : ∀ tx ∈ block.vtx, (view.coins (env.txHash tx)).isPruned = true)
include hblock

/-- The undo data of a checked block are read back. -/
theorem CheckedBlock.reads_undo (keys : PubKeys) {undos : CBlockUndo}
    (hfits : UndoFits block.vtx undos) : unserBlockUndo keys (serBlockUndo keys undos) =
      some (undos.map (·.map CTxInUndo.stored), []) := by
  have hsize : (block.serialize false).length ≤ 2000000 := hblock.size_le
  have hlen : undos.length ≤ MAX_SIZE := by
    have hvtx := block.length_vtx_le
    rw [hfits.length]
    unfold MAX_SIZE
    omega
  have hsizes : ∀ txundo ∈ undos, txundo.length ≤ MAX_SIZE := by
    intro txundo htxundo
    obtain ⟨tx, htx, hlen⟩ := hfits.sizes txundo htxundo
    have htxsize : (tx.serialize false).length ≤ 2000000 := (hblock.txs tx htx).size_le
    have hvin := tx.length_vin_le
    unfold MAX_SIZE
    omega
  have hread := reads_unserBlockUndo keys hlen hsizes hfits.storable []
  rwa [append_nil] at hread

include hversion hhash hview hunused

theorem CheckedBlock.undoable
    (hloop : block.vtx.zipIdx.foldlM (connectCoins env nHeight) (view, []) = .ok t) :
    Undoable env view block.vtx := by
  have hfresh : ∀ tx ∈ block.vtx, (view.coins (env.txHash tx)).vout = [] :=
    fun tx htx => (hview _).vout_eq_nil_of_isPruned (hunused tx htx)
  exact {
    addable := fun tx htx => ⟨(hblock.txs tx htx).range, hversion tx htx⟩
    coinbase := hblock.coinbase_iff
    nodup := nodup_of_connectCoins (fun tx htx => (hblock.txs tx htx).vin_ne) hblock.coinbase_iff
      hhash (fun tx htx => isAvailable_of_vout_eq_nil (hfresh tx htx)) hloop
    fresh := hfresh }

/-- `UpdateCoins` on every transaction of a block, the undo data to disk and back, and
`DisconnectBlock`. -/
def connectThenDisconnect (env : Env) (keys : PubKeys) (block : CBlock) (state : CValidationState)
    (pindex : BlockPlace) (view : CCoinsView) : Option DisconnectState := do
  let r ← (block.vtx.zipIdx.foldlM (connectCoins env pindex.nHeight) (view, [])).toOption
  let undo ← unserBlockUndo keys (serBlockUndo keys r.2)
  (disconnectBlock env block state pindex (r.1.setBestBlock (pindex.phashBlock.getD 0))
    (some undo.1)).toOption

/-- **Disconnecting undoes connecting.** If every transaction of a checked block can be applied,
connecting and disconnecting the block succeeds, reports no inconsistency and leaves every entry
as it was, except that a negative version may have been cut to seven bits. -/
theorem disconnectBlock_undoes_connect {state : CValidationState} {pindex : BlockPlace}
    (keys : PubKeys) (hpos : 0 < pindex.nHeight) (hlt : pindex.nHeight < 2 ^ 31)
    (hplace : pindex.phashBlock.isSome = true)
    (hloop : accepts (block.vtx.zipIdx.foldlM (connectCoins env pindex.nHeight) (view, [])) = true) :
    ∃ s, connectThenDisconnect env keys block state pindex view = some s ∧ s.fClean = true ∧
      ∀ txid, (s.view.coins txid).eqv (view.coins txid) = true ∨
        ((view.coins txid).nVersion < 0 ∧ (s.view.coins txid).eqv
          { view.coins txid with nVersion := storedVersion (view.coins txid).nVersion } = true) := by
  obtain ⟨⟨view', undos⟩, hloop⟩ := accepts_iff.mp hloop
  obtain ⟨hashBlock, hplace⟩ := Option.isSome_iff_exists.mp hplace
  have hvtx := hblock.undoable hversion hhash hview hunused hloop
  obtain ⟨hsound, hfits, hback⟩ := disconnectTxs_connectCoins state hview hpos hlt hvtx hloop
  obtain ⟨s, hs, hsame, hclean, -⟩ := hback { view := view'.setBestBlock hashBlock }
    (undos.map (·.map stored)) (fun txid => .refl _) (fun j txundo hj => by
      rw [getElem?_map, hj]
      rfl)
  have hne : block.vtx ≠ [] := by
    obtain ⟨coinbase, rest, hvtx, -⟩ := hblock.shape
    rw [hvtx]
    exact cons_ne_nil _ _
  have hcount : undos.length + 1 = block.vtx.length := by
    have := length_pos_iff.mpr hne
    rw [hfits.length]
    omega
  have hdisconnect : disconnectBlock env block state pindex (view'.setBestBlock hashBlock)
      (some (undos.map (·.map stored))) =
      .ok { s with view := s.view.setBestBlock (prevHash pindex.pprev) } := by
    unfold disconnectBlock
    rw [failIf_bind_eq_ok]
    refine ⟨by simp [hplace, CCoinsView.setBestBlock], ?_⟩
    rw [failIf_bind_eq_ok, bind_eq_ok]
    exact ⟨by simp [hcount], s, hs, rfl⟩
  refine ⟨{ s with view := s.view.setBestBlock (prevHash pindex.pprev) }, ?_, hclean,
    fun txid => (hsame txid).eqv⟩
  rw [connectThenDisconnect, hloop]
  simp only [Except.toOption, Option.bind_eq_bind, Option.bind_some, hblock.reads_undo keys hfits,
    hplace, Option.getD_some, hdisconnect]

end

/-- Keys none of which is a point. -/
def sampleKeys : PubKeys := noKeys

/-- A payment that empties the entry it spends from. -/
def emptyingBlock : CBlock :=
  sampleBlock 101 1532376016 0x1e0fffff [] [sampleCoinbase 101 1532376016 0 [],
    samplePayment 0 1532376016 [0x51] (1000 * COIN)]

/-- A view with one unspent output, of a transaction with the given version. -/
def versionView (nVersion : Int) : CCoinsView where
  coins := fun txid => if txid = fundingHash then
    { vout := [⟨1000 * COIN, sampleKey⟩], nHeight := 1, nVersion := nVersion } else {}
  hashBlock := BitVec.ofNat 256 1100

/-- Version -1 comes back as 127. -/
theorem negative_version_lost :
    (∀ txid, ((versionView (-1)).coins txid).cleanup = (versionView (-1)).coins txid) ∧
      (∀ tx ∈ emptyingBlock.vtx,
        ((versionView (-1)).coins ((sampleEnv 101).txHash tx)).isPruned = true) ∧
      (connectThenDisconnect (sampleEnv 101) sampleKeys emptyingBlock {} (samplePlace 101)
        (versionView (-1))).map (fun s => (s.fClean, (s.view.coins fundingHash).nVersion,
          (s.view.coins fundingHash).eqv ((versionView (-1)).coins fundingHash))) =
        some (true, 127, false) := by
  refine ⟨fun txid => ?_, by decide +kernel, by decide +kernel⟩
  show cleanup (if txid = fundingHash then _ else _) = if txid = fundingHash then _ else _
  split <;> rfl

theorem versionView_sound : (versionView 1).Sound := by
  intro txid
  show CCoins.Sound (if txid = fundingHash then _ else _)
  split
  · refine ⟨rfl, ?_, fun _ => by decide, by decide, by decide⟩
    intro o ho
    rw [mem_singleton.mp ho]
    exact .inr ⟨by decide, by decide⟩
  · exact .clear

/-- With version 1 the entry is as it was. -/
theorem positive_version_restored :
    ∃ s, connectThenDisconnect (sampleEnv 101) sampleKeys emptyingBlock {} (samplePlace 101)
      (versionView 1) = some s ∧ s.fClean = true ∧
      (s.view.coins fundingHash).eqv ((versionView 1).coins fundingHash) = true := by
  obtain ⟨_, hcheck⟩ := accepts_iff.mp
    (show accepts (checkBlock (sampleEnv 101) emptyingBlock {} true true) = true by decide +kernel)
  obtain ⟨s, hs, hclean, hsame⟩ : ∃ s, connectThenDisconnect (sampleEnv 101) sampleKeys
      emptyingBlock {} (samplePlace 101) (versionView 1) = some s ∧ s.fClean = true ∧ _ :=
    disconnectBlock_undoes_connect (checkBlock_spec rfl hcheck) (by decide +kernel)
      (by decide +kernel) versionView_sound (by decide +kernel) sampleKeys (by decide)
        (by decide) rfl (by decide +kernel)
  refine ⟨s, hs, hclean, (hsame fundingHash).resolve_right fun h => ?_⟩
  exact absurd h.1 (by decide +kernel)

end Chratos
