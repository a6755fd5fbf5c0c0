import Chratos.Consensus.Tip
import Chratos.Properties.UndoConnect

/-!
# Chratos — maturity of generated coins

`CheckTxInputs` refuses to spend an output of a coinbase or coinstake before it is
`COINBASE_MATURITY` blocks deep. It reads the entry's flags and height, so the rule is as good as
the entries: over any history of connections, disconnections and reloads every entry must still
have the height and the flags of the transaction it comes from (`CCoinsView.Tracks`).

Heights and the coinbase flag do survive everything. The coinstake flag is in neither of the two
disk formats, so it is lost when an entry is reloaded and when it is rebuilt from undo data; and
at depth zero the rule is not applied at all. `generated_spends_mature` is the theorem for the
histories that keep clear of these three.
-/

namespace Chratos

open Outcome Codec List CCoins ChainState Option Function CCoinsView

variable {hash256 : List UInt8 → Uint256} {env : Env} {log : TxLog} {tx : CTransaction}
  {nHeight i k : Nat} {state : CValidationState} {vtx : List CTransaction} {s : ChainState}
  {txid : Uint256} {c : CCoins} {undo : CTxInUndo} {t : DisconnectState} {undos : CBlockUndo}
  {pindex : BlockPlace} {call : ConnectCall} {r : Connected} {view view' : CCoinsView} {txin : CTxIn}

/-! ## Entries -/

section

variable (hash256 : List UInt8 → Uint256) (log : TxLog)

/-- The height and the flags of an entry are those of the transaction last confirmed under its
id. -/
structure CCoins.Tracks (txid : Uint256) (c : CCoins) : Prop where
  sound : c.Sound
  length_le : c.vout.length ≤ MAX_SIZE
  origin : c.vout ≠ [] → ∃ g, confirmed hash256 log txid = some (g, c.nHeight) ∧
    (g.isCoinBase = true → c.fCoinBase = true) ∧ (g.isCoinStake = true → c.fCoinStake = true)

def CCoinsView.Tracks (view : CCoinsView) : Prop :=
  ∀ txid, (view.coins txid).Tracks hash256 log txid

/-- An undo record that goes with an input: writable, and when it has metadata, with the height
and the coinbase flag of the transaction the input spends from. -/
structure CTxInUndo.RecordOf (txin : CTxIn) (undo : CTxInUndo) : Prop where
  storable : undo.Storable
  pos_lt : txin.prevout.n.toNat < MAX_SIZE
  origin : undo.nHeight ≠ 0 → ∃ g, confirmed hash256 log txin.prevout.hash = some (g, undo.nHeight) ∧
    (g.isCoinBase = true → undo.fCoinBase = true)

end

section

theorem CCoins.Tracks.clear (txid : Uint256) : clear.Tracks hash256 log txid :=
  ⟨.clear, Nat.zero_le _, fun h => absurd rfl h⟩

theorem CCoins.length_spend_le (c : CCoins) (n : Nat) :
    (c.spend n).vout.length ≤ c.vout.length := by
  unfold spend
  split
  · have := (List.rdropWhile_prefix CTxOut.isNull (c.vout.set n CTxOut.null)).length_le
    rwa [length_set] at this
  · exact le_rfl

variable {s : DisconnectState}

theorem CCoins.Tracks.spend (h : c.Tracks hash256 log txid) (n : Nat) :
    (c.spend n).Tracks hash256 log txid := by
  have hlen := c.length_spend_le n
  obtain ⟨hcb, hcs, hheight, -⟩ := c.spend_fields n
  refine ⟨h.sound.spend n, hlen.trans h.length_le, fun hne => ?_⟩
  have hne' : c.vout ≠ [] := by
    intro hnil
    rw [hnil] at hlen
    exact hne (length_eq_zero_iff.mp (Nat.le_zero.mp hlen))
  rw [hcb, hcs, hheight]
  exact h.origin hne'

/-- The entry of a transaction that was just confirmed. -/
theorem CCoins.Tracks.fromTx (htx : CheckedTx tx) (hversion : IsInt32 tx.nVersion) (hpos : 0 < nHeight)
    (hlt : nHeight < 2 ^ 31) :
    (CCoins.fromTx tx nHeight).Tracks hash256 ((tx, nHeight) :: log) (tx.getHash hash256) := by
  refine ⟨.fromTx htx.range hversion hpos hlt, ?_, fun _ => ?_⟩
  · have hprefix : (CCoins.fromTx tx nHeight).vout.length ≤
        (tx.vout.map dropUnspendable).length := (List.rdropWhile_prefix _ _).length_le
    have hsize : (tx.serialize false).length ≤ 2000000 := htx.size_le
    have hvout := tx.length_vout_le
    rw [length_map] at hprefix
    unfold MAX_SIZE
    omega
  · exact ⟨tx, confirmed_cons_self tx, id, id⟩

/-- A transaction of another id does not concern an entry. -/
theorem CCoins.Tracks.cons_iff (hne : txid ≠ tx.getHash hash256) :
    c.Tracks hash256 ((tx, nHeight) :: log) txid ↔ c.Tracks hash256 log txid := by
  have heq : confirmed hash256 ((tx, nHeight) :: log) txid = confirmed hash256 log txid :=
    confirmed_cons_of_ne hne
  constructor
  · intro h
    exact ⟨h.sound, h.length_le, heq ▸ h.origin⟩
  · intro h
    exact ⟨h.sound, h.length_le, heq ▸ h.origin⟩

theorem CCoinsView.Tracks.modifyCoins (h : view.Tracks hash256 log) {f : CCoins → CCoins}
    (hf : (f (view.coins txid)).cleanup.Tracks hash256 log txid) :
    (view.modifyCoins txid f).Tracks hash256 log :=
  (forall_update_iff _ (CCoins.Tracks hash256 log)).mpr ⟨hf, fun t _ => h t⟩

/-! ## Connecting -/

theorem spendInput_tracks {s t : CCoinsView × CTxUndo} (hs : s.1.Tracks hash256 log)
    (h : spendInput s txin = .ok t) : t.1.Tracks hash256 log ∧
      ∃ undo, t.2 = s.2 ++ [undo] ∧ undo.RecordOf hash256 log txin := by
  obtain ⟨o, ho, hview, hundo⟩ := spendInput_eq_ok h
  have hentry := hs txin.prevout.hash
  have hspent := hentry.spend txin.prevout.n.toNat
  obtain ⟨hget, -⟩ := output?_eq_some.mp ho
  refine ⟨?_, _, hundo, undoOf_storable hentry.sound ho, ?_, fun hmeta => ?_⟩
  · rw [hview]
    exact hs.modifyCoins (by rw [hspent.sound.clean]; exact hspent)
  · exact (List.getElem?_eq_some_iff.mp hget).1.trans_le hentry.length_le
  · obtain ⟨hcb, -, hheight, -⟩ := (s.1.coins txin.prevout.hash).spend_fields txin.prevout.n.toNat
    unfold undoOf at hmeta ⊢
    split at hmeta
    · -- The last output: the record has what the entry had.
      rename_i hlast
      obtain ⟨g, hg, hgcb, -⟩ := hentry.origin (vout_ne_nil ho)
      rw [if_pos hlast, hcb, hheight]
      exact ⟨g, hg, hgcb⟩
    · exact absurd rfl hmeta

theorem spendInputs_tracks {ins : List CTxIn} {undo : CTxUndo} (hview : view.Tracks hash256 log)
    (h : ins.foldlM spendInput (view, []) = .ok (view', undo)) :
    view'.Tracks hash256 log ∧ List.Forall₂ (CTxInUndo.RecordOf hash256 log) ins undo := by
  refine foldlM_ok_rec (fun done (s : CCoinsView × CTxUndo) => s.1.Tracks hash256 log ∧
    List.Forall₂ (CTxInUndo.RecordOf hash256 log) done s.2) ?_ ⟨hview, .nil⟩ h
  intro done txin s t hs hstep
  obtain ⟨ht, undo, hundo, hrecord⟩ := spendInput_tracks hs.1 hstep
  refine ⟨ht, ?_⟩
  rw [hundo]
  exact rel_append hs.2 (.cons hrecord .nil)

/-- **One transaction confirmed.** Its own entry comes from it, all others are as before. -/
theorem updateCoins_tracks {undo : CTxUndo} (hview : view.Tracks hash256 log) (htx : CheckedTx tx)
    (hversion : IsInt32 tx.nVersion) (hpos : 0 < nHeight) (hlt : nHeight < 2 ^ 31)
    (h : updateCoins (tx.getHash hash256) tx view nHeight = .ok (view', undo)) :
    view'.Tracks hash256 ((tx, nHeight) :: log) ∧ (tx.isCoinBase = false →
      List.Forall₂ (CTxInUndo.RecordOf hash256 log) tx.vin undo) := by
  obtain ⟨spent, hspent, hview'⟩ := updateCoins_eq_ok h
  have hspend : spent.Tracks hash256 log ∧ (tx.isCoinBase = false →
      List.Forall₂ (CTxInUndo.RecordOf hash256 log) tx.vin undo) := by
    cases hcb : tx.isCoinBase with
    | true =>
      rw [spendInputs, if_pos hcb] at hspent
      cases hspent
      exact ⟨hview, fun hfalse => Bool.noConfusion hfalse⟩
    | false =>
      rw [spendInputs, if_neg (by simp [hcb])] at hspent
      obtain ⟨htracks, hrecords⟩ := spendInputs_tracks hview hspent
      exact ⟨htracks, fun _ => hrecords⟩
  have hnew : (CCoins.fromTx tx nHeight).Tracks hash256 ((tx, nHeight) :: log) _ :=
    .fromTx htx hversion hpos hlt
  rw [hview']
  refine ⟨(forall_update_iff _ (CCoins.Tracks hash256 ((tx, nHeight) :: log))).mpr
    ⟨?_, fun t ht => (CCoins.Tracks.cons_iff ht).mpr (hspend.1 t)⟩, hspend.2⟩
  rw [hnew.sound.clean]
  exact hnew

/-! ## Disconnecting -/

/-- Where an input's undo record is the last of its transaction, that is no coinstake. -/
def StakeFree (hash256 : List UInt8 → Uint256) (log : TxLog) (txin : CTxIn) (undo : CTxInUndo) :
    Prop :=
  undo.nHeight ≠ 0 → ∀ g nHeight,
    confirmed hash256 log txin.prevout.hash = some (g, nHeight) → g.isCoinStake = false

/-- An output put back into a list of outputs. -/
theorem CTxInUndo.RecordOf.restored_vout (hu : undo.RecordOf hash256 log txin) {l : List CTxOut}
    (hlen : l.length ≤ MAX_SIZE) (houts : ∀ o ∈ l, o = CTxOut.null ∨ o.Storable) :
    let vout := ((l ++ List.replicate (txin.prevout.n.toNat + 1 - l.length) CTxOut.null).set
      txin.prevout.n.toNat undo.txout).rdropWhile CTxOut.isNull
    (∀ o ∈ vout, o = CTxOut.null ∨ o.Storable) ∧ vout.length ≤ MAX_SIZE := by
  intro vout
  have hcut : vout <+: _ := rdropWhile_prefix _ _
  constructor
  · intro o ho
    rcases mem_or_eq_of_mem_set (hcut.subset ho) with hold | rfl
    · rcases mem_append.mp hold with hold | hpad
      · exact houts o hold
      · exact .inl (eq_of_mem_replicate hpad)
    · exact .inr hu.storable.txout
  · have hle := hcut.length_le
    have hpos := hu.pos_lt
    rw [length_set, length_append, length_replicate] at hle
    omega

/-- **One output restored.** An entry rebuilt from a record has no coinstake flag, so the record
must not be one of a coinstake's. -/
theorem restoreOutput_tracks (hc : c.Tracks hash256 log txin.prevout.hash)
    (hu : undo.RecordOf hash256 log txin) (hstake : StakeFree hash256 log txin undo)
    (hclean : (restoreOutput undo txin.prevout.n.toNat c).2 = true) :
    (restoreOutput undo txin.prevout.n.toNat c).1.cleanup.Tracks hash256 log txin.prevout.hash := by
  by_cases hmeta : undo.nHeight = 0
  · -- The entry is still there.
    simp only [restoreOutput, ne_eq, hmeta, not_true_eq_false, if_false, Bool.and_eq_true,
      Bool.not_eq_true'] at hclean ⊢
    have hne : c.vout ≠ [] := by
      intro hnil
      rw [isPruned, hnil] at hclean
      cases hclean.1
    obtain ⟨houts, hlen⟩ := hu.restored_vout hc.length_le hc.sound.outs
    exact ⟨⟨cleanup_cleanup _, houts, fun _ => hc.sound.nHeight_pos hne,
      hc.sound.nHeight_lt, hc.sound.nVersion_int⟩, hlen, fun _ => hc.origin hne⟩
  · -- The entry is rebuilt from the record.
    obtain ⟨g, hg, hgcb⟩ := hu.origin hmeta
    simp only [restoreOutput, ne_eq, hmeta, not_false_eq_true, if_true]
    obtain ⟨houts, hlen⟩ := hu.restored_vout (l := []) (Nat.zero_le _) (forall_mem_nil _)
    refine ⟨⟨cleanup_cleanup _, houts, fun _ => pos_of_ne_zero hmeta,
      hu.storable.nHeight_lt, hu.storable.nVersion_int⟩, hlen, fun _ => ⟨g, hg, hgcb, fun hgcs => ?_⟩⟩
    rw [hstake hmeta g _ hg] at hgcs
    cases hgcs

/-- The inputs of a transaction restored, as long as nothing unexpected is met. -/
theorem restoreInputs_tracks {txhash : Uint256} {inputs : List ((CTxIn × CTxInUndo) × Nat)}
    (hrecords : ∀ input ∈ inputs, input.1.2.RecordOf hash256 log input.1.1)
    (hstake : ∀ input ∈ inputs, StakeFree hash256 log input.1.1 input.1.2)
    (hs : s.fClean = true → s.view.Tracks hash256 log)
    (h : inputs.foldlM (restoreInput env nHeight i txhash) s = .ok t) :
    t.fClean = true → t.view.Tracks hash256 log := by
  induction inputs generalizing s with
  | nil =>
    cases h
    exact hs
  | cons input inputs ih =>
    rw [foldlM_cons_eq_ok] at h
    obtain ⟨u, hstep, hrest⟩ := h
    obtain ⟨hview, hclean⟩ := restoreInput_eq_ok hstep
    obtain ⟨hrecord, hrecords⟩ := forall_mem_cons.mp hrecords
    obtain ⟨hfree, hstake⟩ := forall_mem_cons.mp hstake
    refine ih hrecords hstake (fun hu => ?_) hrest
    rw [hclean, Bool.and_eq_true] at hu
    have hentry := restoreOutput_tracks (hs hu.1 _) hrecord hfree hu.2
    rw [hview]
    exact (hs hu.1).modifyCoins (f := fun _ => (restoreOutput input.1.2
      input.1.1.prevout.n.toNat (s.view.coins input.1.1.prevout.hash)).1) hentry

/-- Removing the outputs of the last transaction: its entry is empty, no other one is its. -/
theorem removeOutputs_tracks (hs : s.fClean = true → s.view.Tracks hash256 ((tx, nHeight) :: log)) :
    (removeOutputs (tx.getHash hash256) tx nHeight s).fClean = true →
      (removeOutputs (tx.getHash hash256) tx nHeight s).view.Tracks hash256 log := by
  intro hclean
  have hview := hs (by
    rw [removeOutputs, Bool.and_eq_true] at hclean
    exact hclean.1)
  exact (forall_update_iff _ (CCoins.Tracks hash256 log)).mpr
    ⟨CCoins.Tracks.clear _, fun t ht => (CCoins.Tracks.cons_iff ht).mp (hview t)⟩

end

section

variable {blockUndo : CBlockUndo} {s : DisconnectState}

/-- **One transaction taken back.** -/
theorem disconnectTx_tracks
    (hs : s.fClean = true → s.view.Tracks env.hash256 ((tx, nHeight) :: log))
    (hrecords : ∀ txundo, 0 < i → blockUndo[i - 1]? = some txundo →
      ∀ input ∈ tx.vin.zip txundo, input.2.RecordOf env.hash256 log input.1 ∧
        StakeFree env.hash256 log input.1 input.2)
    (h : disconnectTx env state nHeight blockUndo s (tx, i) = .ok t) :
    t.fClean = true → t.view.Tracks env.hash256 log := by
  have hremoved := removeOutputs_tracks (s := { s with
    rows := s.rows.append (takeBackReceipts env (env.txHash tx) tx i nHeight) }) hs
  rw [disconnectTx] at h
  by_cases hi : 0 < i
  · rw [if_pos hi] at h
    simp only [bind_eq_ok, orAssert_eq_ok, failIf_eq_ok, exists_unit] at h
    obtain ⟨txundo, hundo, -, hloop⟩ := h
    have hinputs : ∀ input ∈ (tx.vin.zip txundo).zipIdx.reverse, input.1 ∈ tx.vin.zip txundo :=
      fun input hmem => fst_mem_of_mem_zipIdx (mem_reverse.mp hmem)
    exact restoreInputs_tracks
      (fun input hmem => (hrecords txundo hi hundo input.1 (hinputs input hmem)).1)
      (fun input hmem => (hrecords txundo hi hundo input.1 (hinputs input hmem)).2) hremoved hloop
  · rw [if_neg hi] at h
    cases h
    exact hremoved

section

variable (hash256 : List UInt8 → Uint256) (log : TxLog) (nHeight : Nat) (vtx : List CTransaction)
  (undos : CBlockUndo)

/-- The undo data of a block: for each transaction but the first, a record for each input, about
the chain below and the transactions before. -/
structure BlockRecords : Prop where
  length : undos.length = vtx.length - 1
  records : ∀ (k : Nat) tx txundo, vtx[k + 1]? = some tx → undos[k]? = some txundo →
    List.Forall₂ (CTxInUndo.RecordOf hash256 (logTxs nHeight (vtx.take (k + 1)) log)) tx.vin txundo

/-- No transaction of a block used up a coinstake: what the undo data would rebuild are entries of
other transactions. -/
def KeepsStakes : Prop :=
  ∀ (k : Nat) tx txundo, vtx[k + 1]? = some tx → undos[k]? = some txundo →
    ∀ input ∈ tx.vin.zip txundo,
      StakeFree hash256 (logTxs nHeight (vtx.take (k + 1)) log) input.1 input.2

end

theorem getElem?_append_singleton {x : CTransaction} (h : (vtx ++ [tx])[k]? = some x) :
    vtx[k]? = some x ∨ (k = vtx.length ∧ x = tx) := by
  rw [getElem?_append] at h
  split at h
  · exact .inl h
  · rw [getElem?_singleton] at h
    split at h
    · exact .inr ⟨by omega, (some.inj h).symm⟩
    · cases h

/-- **A block connected**: the view tracks the longer log, the undo data records the block. -/
theorem connectCoins_tracks
    (hview : view.Tracks env.hash256 log) (hchecked : ∀ tx ∈ vtx, CheckedTx tx)
    (hversion : ∀ tx ∈ vtx, IsInt32 tx.nVersion)
    (hcb : ∀ txi ∈ vtx.zipIdx, txi.1.isCoinBase = true ↔ txi.2 = 0) (hpos : 0 < nHeight)
    (hlt : nHeight < 2 ^ 31)
    (h : vtx.zipIdx.foldlM (connectCoins env nHeight) (view, []) = .ok (view', undos)) :
    view'.Tracks env.hash256 (logTxs nHeight vtx log) ∧
      BlockRecords env.hash256 log nHeight vtx undos := by
  induction vtx using reverseRecOn generalizing view' undos with
  | nil =>
    cases h
    exact ⟨hview, rfl, nofun⟩
  | append_singleton vtx tx ih =>
    obtain ⟨⟨mid, done⟩, undo, hfront, hup, hundos⟩ := connectCoins_concat h
    obtain ⟨hmid, hrecords⟩ := ih (fun x hx => hchecked x (mem_append_left _ hx))
      (fun x hx => hversion x (mem_append_left _ hx))
      (fun txi htxi => hcb txi (by rw [zipIdx_concat]; exact mem_append_left _ htxi)) hfront
    dsimp only at hup hundos
    obtain ⟨hview', hundo⟩ := updateCoins_tracks hmid (hchecked tx (by simp))
      (hversion tx (by simp)) hpos hlt hup
    have hfirst := hcb (tx, vtx.length) (by rw [zipIdx_concat]; simp)
    have hdone := hrecords.length
    rw [logTxs_append_singleton]
    refine ⟨hview', ?_, fun k x txundo hx hget => ?_⟩
    · rw [hundos]
      split
      · rw [length_append, length_append, hdone]
        simp only [length_singleton]
        omega
      · rw [length_append, hdone, length_singleton]
        omega
    · rcases getElem?_append_singleton hx with hold | ⟨hk, rfl⟩
      · -- One of the transactions before.
        have hklt := (List.getElem?_eq_some_iff.mp hold).1
        rw [take_append_of_le_length (by omega)]
        refine hrecords.records k x txundo hold ?_
        rw [hundos, if_pos (by omega), getElem?_append_left (by omega)] at hget
        exact hget
      · -- The transaction itself.
        have hlen : (vtx ++ [x]).take (k + 1) = vtx := by
          rw [hk, take_left]
        rw [hundos, if_pos (by omega), getElem?_append_right (by omega)] at hget
        have hzero : k - done.length = 0 := by omega
        rw [hzero] at hget
        injection hget with hget
        rw [hlen, ← hget]
        refine hundo ?_
        rw [Bool.eq_false_iff]
        intro hcoinbase
        have := hfirst.mp hcoinbase
        omega

/-- **A block disconnected**, as long as nothing unexpected is met. -/
theorem disconnectTxs_tracks
    (hs : s.fClean = true → s.view.Tracks env.hash256 (logTxs nHeight vtx log))
    (hrecords : ∀ (k : Nat) tx txundo, vtx[k + 1]? = some tx → blockUndo[k]? = some txundo →
      List.Forall₂ (CTxInUndo.RecordOf env.hash256 (logTxs nHeight (vtx.take (k + 1)) log))
        tx.vin txundo) (hstakes : KeepsStakes env.hash256 log nHeight vtx blockUndo)
    (h : vtx.zipIdx.reverse.foldlM (disconnectTx env state nHeight blockUndo) s = .ok t) :
    t.fClean = true → t.view.Tracks env.hash256 log := by
  -- Induction from the last transaction, which is the first to be taken back.
  induction vtx using reverseRecOn generalizing s with
  | nil =>
    cases h
    exact hs
  | append_singleton vtx tx ih =>
    rw [zipIdx_concat, reverse_concat, foldlM_cons_eq_ok] at h
    obtain ⟨u, hlast, hrest⟩ := h
    rw [logTxs_append_singleton] at hs
    have hbefore : ∀ k x, vtx[k]? = some x → (vtx ++ [tx])[k]? = some x ∧
        (vtx ++ [tx]).take k = vtx.take k := by
      intro k x hx
      have hlt := (List.getElem?_eq_some_iff.mp hx).1
      exact ⟨by rw [getElem?_append_left hlt]; exact hx, take_append_of_le_length (by omega)⟩
    refine ih ?_ ?_ ?_ hrest
    · refine disconnectTx_tracks hs (fun txundo hpos hget input hinput => ?_) hlast
      have hself : (vtx ++ [tx])[vtx.length - 1 + 1]? = some tx := by
        rw [Nat.sub_add_cancel hpos]
        simp
      have htake : (vtx ++ [tx]).take (vtx.length - 1 + 1) = vtx := by
        rw [Nat.sub_add_cancel hpos, take_left]
      have hrecord := hrecords _ tx txundo hself hget
      have hstake := hstakes _ tx txundo hself hget input hinput
      rw [htake] at hrecord hstake
      exact ⟨forall₂_iff_zip.mp hrecord |>.2 hinput, hstake⟩
    · intro k x txundo hx hget
      obtain ⟨hx', htake⟩ := hbefore _ x hx
      have hrecord := hrecords k x txundo hx' hget
      rwa [htake] at hrecord
    · intro k x txundo hx hget input hinput
      obtain ⟨hx', htake⟩ := hbefore _ x hx
      have hstake := hstakes k x txundo hx' hget input hinput
      rwa [htake] at hstake

end

/-! ## Reloading -/

theorem storedVersion_int {v : Int} (h : IsInt32 v) : IsInt32 (storedVersion v) := by
  unfold IsInt32 storedVersion at *
  split <;> omega

variable {n : Nat}

/-- **An entry reloaded** keeps its height and its coinbase flag, but no coinstake flag. -/
theorem CCoins.Tracks.reload (keys : PubKeys) (h : c.Tracks hash256 log txid)
    (hstake : c.vout ≠ [] → ∀ g nHeight,
      confirmed hash256 log txid = some (g, nHeight) → g.isCoinStake = false) :
    (c.reload keys).Tracks hash256 log txid := by
  unfold CCoins.reload
  split
  · exact .clear txid
  · rename_i hunspent
    have hne : c.vout ≠ [] := by
      intro hnil
      rw [isPruned, hnil] at hunspent
      exact hunspent rfl
    have hread := reads_unserCoins keys ⟨hne, h.sound.clean, h.sound.outs, h.length_le,
      h.sound.nHeight_lt, h.sound.nVersion_int⟩ []
    rw [append_nil] at hread
    rw [hread]
    obtain ⟨g, hg, hgcb, -⟩ := h.origin hne
    refine ⟨⟨?_, h.sound.outs, h.sound.nHeight_pos, h.sound.nHeight_lt,
      storedVersion_int h.sound.nVersion_int⟩, h.length_le, fun _ => ⟨g, hg, hgcb, fun hgcs => ?_⟩⟩
    · show cleanup c.stored = c.stored
      rw [cleanup, stored, h.sound.vout_clean]
    · rw [hstake hne g _ hg] at hgcs
      cases hgcs

/-! ## Undo data on disk -/

theorem CTxInUndo.RecordOf.stored
    (h : undo.RecordOf hash256 log txin) : undo.stored.RecordOf hash256 log txin := by
  refine ⟨⟨h.storable.txout, h.storable.nHeight_lt, ?_⟩, h.pos_lt, h.origin⟩
  show IsInt32 (if 0 < undo.nHeight then storedVersion undo.nVersion else 0)
  split
  · exact storedVersion_int h.storable.nVersion_int
  · unfold IsInt32
    omega

theorem BlockRecords.stored (h : BlockRecords hash256 log nHeight vtx undos) :
    BlockRecords hash256 log nHeight vtx (undos.map (·.map CTxInUndo.stored)) := by
  refine ⟨by rw [length_map, h.length], fun k tx txundo htx hget => ?_⟩
  rw [getElem?_map, map_eq_some_iff] at hget
  obtain ⟨txundo, hget, rfl⟩ := hget
  rw [forall₂_map_right_iff]
  exact (h.records k tx txundo htx hget).imp fun _ _ hrecord => hrecord.stored

theorem BlockRecords.fits (h : BlockRecords hash256 log nHeight vtx undos) : UndoFits vtx undos := by
  -- Every list of records is that of some transaction.
  have hof : ∀ txundo ∈ undos, ∃ tx ∈ vtx, ∃ k : Nat, List.Forall₂
      (CTxInUndo.RecordOf hash256 (logTxs nHeight (vtx.take (k + 1)) log)) tx.vin txundo := by
    intro txundo hmem
    obtain ⟨k, hk, hget⟩ := getElem_of_mem hmem
    have hlen := h.length
    have hlt : k + 1 < vtx.length := by omega
    exact ⟨vtx[k + 1], getElem_mem hlt, k, h.records k _ txundo
      (getElem?_eq_getElem hlt) (by rw [getElem?_eq_getElem hk, hget])⟩
  refine ⟨h.length, fun txundo hmem => ?_, fun txundo hmem u hu => ?_⟩
  · obtain ⟨tx, htx, k, hrecords⟩ := hof txundo hmem
    exact ⟨tx, htx, hrecords.length_eq.symm⟩
  · obtain ⟨tx, htx, k, hrecords⟩ := hof txundo hmem
    obtain ⟨j, hj, hget⟩ := getElem_of_mem hu
    have hjlt : j < tx.vin.length := by
      rw [hrecords.length_eq]
      exact hj
    have hrecord := hrecords.get hjlt hj
    rw [get_eq_getElem, get_eq_getElem, hget] at hrecord
    exact hrecord.storable

/-! ## The rule at work -/

/-- No transaction of the block on top of a chain spends an output of a coinbase or coinstake that
is less than `COINBASE_MATURITY` deep. -/
def SpendsMature (hash256 : List UInt8 → Uint256) (blocks : List CBlock) (block : CBlock) : Prop :=
  ∀ (k : Nat) tx, block.vtx[k]? = some tx → tx.isCoinBase = false → ∀ i ∈ tx.vin, ∀ g nHeight,
    confirmed hash256 (logTxs (blocks.length + 1) (block.vtx.take k) (logOf blocks)) i.prevout.hash =
      some (g, nHeight) →
    g.isGenerated = true → nHeight + COINBASE_MATURITY ≤ blocks.length + 1

/-- No transaction of a block spends what the block itself generates. -/
def SpendsNoOwn (hash256 : List UInt8 → Uint256) (block : CBlock) : Prop :=
  ∀ (k : Nat) tx, block.vtx[k]? = some tx → tx.isCoinBase = false → ∀ i ∈ tx.vin,
    ∀ g ∈ block.vtx.take k, g.isGenerated = true → g.getHash hash256 ≠ i.prevout.hash

theorem zipIdx_eq_append_cons (h : vtx[k]? = some tx) :
    vtx.zipIdx = (vtx.take k).zipIdx ++ (tx, k) :: (vtx.drop (k + 1)).zipIdx (k + 1) := by
  obtain ⟨hlt, rfl⟩ := List.getElem?_eq_some_iff.mp h
  conv_lhs => rw [← take_append_drop k vtx, drop_eq_getElem_cons hlt]
  rw [zipIdx_append, zipIdx_cons, length_take, min_eq_left hlt.le, zero_add]

section

variable {block : CBlock}

section

variable {txs : List (CTransaction × Nat)} {s s' : ConnectState} {cs : List CScriptCheck}

/-- A round of the loop, with what came before it. -/
theorem BlockRun.split {txi : CTransaction × Nat} {rest : List (CTransaction × Nat)}
    (h : BlockRun env block state pindex (txs ++ txi :: rest) s s' cs) :
    ∃ u cs₁ cs₂, BlockRun env block state pindex txs s u cs₁ ∧
      InputChecks env txi.1 state u.view (scriptChecksEnabled env pindex)
        (connectFlags env block pindex.pprev) cs₂ := by
  induction txs generalizing s cs with
  | nil =>
    cases h with
    | cons hin heff hrest => exact ⟨s, [], _, .nil s, hin⟩
  | cons x txs ih =>
    cases h with
    | cons hin heff hrest =>
      obtain ⟨u, cs₁, cs₂, hrun, hin'⟩ := ih hrest
      exact ⟨u, _, cs₂, .cons hin heff hrun, hin'⟩

/-- The best block is not touched by the loop. -/
theorem BlockRun.hashBlock (h : BlockRun env block state pindex txs s s' cs) :
    s'.view.hashBlock = s.view.hashBlock := by
  induction h with
  | nil s => rfl
  | cons _ heff _ ih =>
    obtain ⟨undo, hup, -⟩ := heff.update
    obtain ⟨spent, hspent, hview⟩ := updateCoins_eq_ok hup
    rw [ih, hview, modifyNewCoins_hashBlock, spendInputs_hashBlock hspent]

end

end

/-- An entry that came through the check is old enough, or was made at the height it is spent. -/
theorem mature_or_own {nSpendHeight : Nat} (hmain : env.fTestnet = false)
    (hgen : c.fCoinBase = true ∨ c.fCoinStake = true) (h : isPremature env c nSpendHeight = false) :
    c.nHeight + COINBASE_MATURITY ≤ nSpendHeight ∨ nSpendHeight ≤ c.nHeight := by
  have hflags : (c.fCoinBase || c.fCoinStake) = true := Bool.or_eq_true_iff.mpr hgen
  simp only [isPremature, hflags, hmain, Bool.not_false, Bool.true_and, Bool.and_eq_false_iff,
    decide_eq_false_iff_not, not_lt] at h
  rcases h with hdeep | hown
  · exact .inl (by omega)
  · exact .inr (by omega)

/-- **The block on top.** On coins that track the chain, an accepted block spends mature coins, if
it keeps off its own. -/
theorem ConnectCall.Fits.spendsMature (hfits : call.Fits hash256 s)
    (hview : s.view.Tracks hash256 (logOf s.blocks)) (hrun : call.run s.view = .ok r)
    (hown : SpendsNoOwn hash256 call.block) : SpendsMature hash256 s.blocks call.block := by
  have hblock := hfits.checkedBlock hrun
  obtain ⟨_, t, cs, _, hpass, -⟩ := connectBlock_spec hfits.not_genesis hrun
  obtain ⟨pindexPrev, htip, htipHeight⟩ := hfits.tip
  obtain rfl := hfits.hash256_eq
  have hheight := hfits.nHeight_eq
  intro k tx htx hcb i hi g nHeight hg hgen
  -- The view when the transaction's turn comes.
  have hsplit := zipIdx_eq_append_cons htx
  have hloop := hpass.run
  rw [hsplit] at hloop
  obtain ⟨u, cs₁, cs₂, hbefore, hinputs⟩ := hloop.split
  have hmem : ∀ x ∈ call.block.vtx.take k, x ∈ call.block.vtx := fun x hx => mem_of_mem_take hx
  obtain ⟨hu, -⟩ := connectCoins_tracks hview (fun x hx => hblock.txs x (hmem x hx))
    (fun x hx => hfits.nVersion_int x (hmem x hx))
    (fun txi htxi => hblock.coinbase_iff txi (by
      rw [hsplit]
      exact mem_append_left _ htxi))
    (by omega) hfits.nHeight_lt hbefore.connectCoins
  obtain ⟨nSpendHeight, hspend, hchecked⟩ := hinputs.checkedInputs hcb
  have hspendHeight : nSpendHeight = s.blocks.length + 1 := by
    have hbest : u.view.hashBlock = s.view.hashBlock := hbefore.hashBlock
    rw [getSpendHeight, hbest, htip] at hspend
    cases hspend
    rw [htipHeight]
  -- The entry the input spends from.
  obtain ⟨o, ho⟩ := (haveInputs_iff hcb).mp hchecked.have_inputs i hi
  obtain ⟨g', hg', hgcb, hgcs⟩ := (hu i.prevout.hash).origin (vout_ne_nil ho)
  rw [hheight, hg] at hg'
  injection hg' with hg'
  obtain ⟨rfl, hentry⟩ := Prod.mk.inj hg'
  have hflags : (u.view.coins i.prevout.hash).fCoinBase = true ∨
      (u.view.coins i.prevout.hash).fCoinStake = true := by
    rw [CTransaction.isGenerated, Bool.or_eq_true] at hgen
    exact hgen.imp hgcb hgcs
  rcases mature_or_own hfits.mainnet hflags (hchecked.mature i hi) with hdeep | hzero
  · rw [← hentry, hspendHeight] at hdeep
    exact hdeep
  · -- Depth zero: the transaction is of this block.
    exfalso
    rcases confirmed_logTxs_cases hg with ⟨hin, -, hhash⟩ | hlog
    · exact hown k tx htx hcb i hi g hin hgen hhash
    · have := le_length_of_mem_logOf hlog
      omega

/-! ## Whole histories -/

/-- What a change must keep clear of:

* a block must not spend what it generates itself;
* no coinstake may have been used up by the block that is disconnected;
* no entry of a coinstake may leave the cache. -/
def ChainAction.Safe (hash256 : List UInt8 → Uint256) (keys : PubKeys) (s : ChainState) :
    ChainAction → Prop
  | .connect call => SpendsNoOwn hash256 call.block
  | .disconnect _ _ _ => ∀ block rest undos, s.blocks = block :: rest →
      s.readUndo keys s.blocks = some undos →
      KeepsStakes hash256 (logOf rest) (rest.length + 1) block.vtx undos
  | .reload ids => ∀ txid, ids txid = true → (s.view.coins txid).vout ≠ [] → ∀ g nHeight,
      confirmed hash256 (logOf s.blocks) txid = some (g, nHeight) → g.isCoinStake = false

/-- The states of a node whose history was safe. -/
inductive SafelyReached (hash256 : List UInt8 → Uint256) (keys : PubKeys) (hashGenesis : Uint256) :
    ChainState → Prop
  | start : SafelyReached hash256 keys hashGenesis (.start hashGenesis)
  | step {s t : ChainState} {a : ChainAction} (before : SafelyReached hash256 keys hashGenesis s)
      (fits : a.Fits hash256 s) (safe : a.Safe hash256 keys s) (next : s.step keys a = some t) :
      SafelyReached hash256 keys hashGenesis t

/-- What holds in all of them: the coins track the chain, and so do the undo data, for every chain
a block was ever connected to. -/
structure ChainState.Tracks (hash256 : List UInt8 → Uint256) (keys : PubKeys) (s : ChainState) :
    Prop where
  view : s.view.Tracks hash256 (logOf s.blocks)
  undo : ∀ block rest bytes, s.undo (block :: rest) = some bytes → ∃ undos tail,
    unserBlockUndo keys bytes = some (undos, tail) ∧
      BlockRecords hash256 (logOf rest) (rest.length + 1) block.vtx undos

section

variable {keys : PubKeys} {t : ChainState} {hashGenesis : Uint256}

theorem ChainState.Tracks.connect (h : s.Tracks hash256 keys) (hfits : call.Fits hash256 s)
    (hstep : s.step keys (.connect call) = some t) : t.Tracks hash256 keys := by
  obtain ⟨r, hrun, rfl⟩ := step_connect_eq_some hstep
  have hblock := hfits.checkedBlock hrun
  obtain ⟨_, u, _, _, hpass, hr⟩ := connectBlock_spec hfits.not_genesis hrun
  obtain rfl := hfits.hash256_eq
  obtain ⟨hview, hrecords⟩ := connectCoins_tracks h.view hblock.txs hfits.nVersion_int
    hblock.coinbase_iff (by rw [hfits.nHeight_eq]; omega) hfits.nHeight_lt hpass.run.connectCoins
  rw [hfits.nHeight_eq] at hview hrecords
  have hundo : r.blockundo = u.blockundo := by
    rw [hr]
    rfl
  refine ⟨?_, fun block rest bytes hbytes => ?_⟩
  · intro txid
    rw [hr]
    exact hview txid
  · dsimp only [writeUndo] at hbytes
    by_cases hpath : block :: rest = call.block :: s.blocks
    · rw [hpath, update_self] at hbytes
      injection hbytes with hbytes
      obtain ⟨rfl, rfl⟩ := cons.inj hpath
      cases hold : s.undo (call.block :: s.blocks) with
      | some old =>
        -- Connected before: the data of the first time stay.
        rw [hold] at hbytes
        rw [← hbytes]
        exact h.undo _ _ _ hold
      | none =>
        rw [hold, getD_none, hundo] at hbytes
        rw [← hbytes]
        exact ⟨_, _, hblock.reads_undo keys hrecords.fits, hrecords.stored⟩
    · rw [update_of_ne hpath] at hbytes
      exact h.undo block rest bytes hbytes

theorem ChainState.Tracks.disconnect
    (h : s.Tracks hash256 keys) (hfits : ChainAction.Fits hash256 s (.disconnect env state pindex))
    (hsafe : ChainAction.Safe hash256 keys s (.disconnect env state pindex))
    (hstep : s.step keys (.disconnect env state pindex) = some t) : t.Tracks hash256 keys := by
  obtain ⟨block, rest, u, hblocks, hrun, hclean, rfl⟩ := step_disconnect_eq_some hstep
  obtain ⟨blockUndo, v, hundo, -, hloop, rfl⟩ := disconnectBlock_eq_ok hrun
  obtain ⟨rfl, hheight⟩ := hfits
  have hview := h.view
  rw [hblocks] at hview hheight
  rw [hheight] at hloop
  have hstakes := hsafe block rest blockUndo hblocks (by rw [hblocks]; exact hundo)
  -- The records are those written when the block was first connected to this chain.
  rw [readUndo, bind_eq_some_iff] at hundo
  obtain ⟨bytes, hbytes, hread⟩ := hundo
  obtain ⟨undos, tail, hread', hrecords⟩ := h.undo block rest bytes hbytes
  rw [hread'] at hread
  injection hread with hread
  obtain rfl := hread
  have hback : v.view.Tracks env.hash256 (logOf rest) := by
    refine disconnectTxs_tracks ?_ hrecords.records hstakes hloop hclean
    exact fun _ => hview
  exact ⟨hback, h.undo⟩

theorem ChainState.Tracks.reload {ids : Uint256 → Bool} (h : s.Tracks hash256 keys)
    (hsafe : ChainAction.Safe hash256 keys s (.reload ids))
    (hstep : s.step keys (.reload ids) = some t) : t.Tracks hash256 keys := by
  injection hstep with hstep
  rw [← hstep]
  refine ⟨fun txid => ?_, h.undo⟩
  dsimp only
  by_cases hid : ids txid = true
  · rw [if_pos hid]
    exact (h.view txid).reload keys (hsafe txid hid)
  · rw [if_neg hid]
    exact h.view txid

/-- **Every safe history** leaves coins that track the chain. -/
theorem SafelyReached.tracks (h : SafelyReached hash256 keys hashGenesis s) :
    s.Tracks hash256 keys := by
  induction h with
  | start => exact ⟨fun txid => .clear txid, nofun⟩
  | @step s t a _ hfits hsafe hstep ih =>
    cases a with
    | connect call => exact ih.connect hfits hstep
    | disconnect env state pindex => exact ih.disconnect hfits hsafe hstep
    | reload ids => exact ih.reload hsafe hstep

/-- **Maturity.** After any safe history, an accepted block that keeps off its own coinbase and
coinstake spends no generated coins less than `COINBASE_MATURITY` deep. -/
theorem generated_spends_mature
    (hreached : SafelyReached hash256 keys hashGenesis s) (hfits : call.Fits hash256 s)
    (hown : SpendsNoOwn hash256 call.block) (haccepted : call.run s.view = .ok r) :
    SpendsMature hash256 s.blocks call.block :=
  hfits.spendsMature hreached.tracks.view haccepted hown

end

/-! ## Two blocks -/

/-- A hash of block headers that reads off the nonce. -/
def nonceHash (bytes : List UInt8) : Uint256 := BitVec.ofNat 256 (1000 + leNat (bytes.drop 76) % 2 ^ 32)

section

variable (nHeight : Nat) (nNonce : UInt32) (vtx : List CTransaction)

/-- A block on top of the sample chain, at the given height. Every block below has generated a
stake modifier, so there is none to compute. -/
def chainCall : ConnectCall where
  env := { sampleEnv nHeight with hash9 := nonceHash }
  nScriptCheckThreads := 0
  block := { sampleBlock nHeight (sampleIndex nHeight).nTime 0x1f00ffff [] vtx with nNonce := nNonce }
  state := {}
  pindex := ⟨nHeight, some (BitVec.ofNat 256 (1000 + nNonce.toNat)),
    (sampleChain nHeight).map fun pindex => { pindex with fGeneratedStakeModifier := true }⟩

theorem drop_serialize (b : CBlockHeader) : b.serialize.drop 76 = serUInt32 b.nNonce := by
  have hlen : (serInt32 b.nVersion ++ serUint256 b.hashPrevBlock ++ serUint256 b.hashMerkleRoot ++
      serUInt32 b.nTime ++ serUInt32 b.nBits).length = 76 := by
    simp [serInt32, serUint256, serUInt32]
  rw [CBlockHeader.serialize, ← hlen, drop_left]

/-- The hash of a sample block is the one of its index entry. -/
theorem chainCall_blockHash :
    (chainCall nHeight nNonce vtx).env.blockHash (chainCall nHeight nNonce vtx).block =
      BitVec.ofNat 256 (1000 + nNonce.toNat) := by
  have hlt := nNonce.toNat_lt
  show nonceHash (CBlockHeader.serialize _) = _
  rw [nonceHash, drop_serialize, serUInt32, leNat_leBytes]
  show BitVec.ofNat 256 (1000 + nNonce.toNat % 256 ^ 4 % 2 ^ 32) = _
  rw [Nat.mod_eq_of_lt (show nNonce.toNat < 256 ^ 4 by omega), Nat.mod_eq_of_lt hlt]

/-- Sample hashes are small, the one of genesis is not. -/
theorem chainCall_not_genesis :
    (chainCall nHeight nNonce vtx).env.blockHash (chainCall nHeight nNonce vtx).block ≠
      (chainCall nHeight nNonce vtx).env.consensus.hashGenesisBlock := by
  rw [chainCall_blockHash]
  intro heq
  have hsmall : (BitVec.ofNat 256 (1000 + nNonce.toNat)).toNat < 2 ^ 33 := by
    have := nNonce.toNat_lt
    rw [BitVec.toNat_ofNat, Nat.mod_eq_of_lt (by omega)]
    omega
  rw [heq] at hsmall
  revert hsmall
  show ¬ Consensus.Params.main.hashGenesisBlock.toNat < 2 ^ 33
  decide

end

theorem chainCall_fits {nNonce : UInt32} (hn : n < 1000) (hblocks : s.blocks.length = n)
    (hbest : s.view.hashBlock = (sampleIndex n).hash) (hversion : ∀ tx ∈ vtx, IsInt32 tx.nVersion) :
    (chainCall (n + 1) nNonce vtx).Fits sampleHash s where
  hash256_eq := rfl
  mainnet := rfl
  nHeight_eq := by
    rw [hblocks]
    rfl
  nHeight_lt := by
    show n + 1 < 2 ^ 31
    omega
  tip := by
    have hhash : (sampleIndex n).hash.toNat = 1000 + n := by
      show (BitVec.ofNat 256 (1000 + n)).toNat = 1000 + n
      rw [BitVec.toNat_ofNat, Nat.mod_eq_of_lt (by omega)]
    refine ⟨sampleIndex n, ?_, hblocks.symm⟩
    show (if 1000 ≤ s.view.hashBlock.toNat ∧ s.view.hashBlock.toNat < 1000 + (n + 1) then
      some (sampleIndex (s.view.hashBlock.toNat - 1000)) else none) = _
    rw [hbest, hhash, if_pos (by omega), Nat.add_sub_cancel_left]
  not_genesis := chainCall_not_genesis _ _ _
  checked := fun h => by cases h
  nVersion_int := hversion

/-- A transaction that spends output `n` of another. -/
def spendingOf (tx : CTransaction) (n : UInt32) (vout : List CTxOut) : CTransaction where
  nVersion := 1
  nTime := tx.nTime
  vin := [⟨⟨tx.getHash sampleHash, n⟩, [0x51], 0xffffffff⟩]
  vout := vout
  nLockTime := 0

/-- Spends the coinbase of its own block. -/
def ownPayment : CTransaction :=
  spendingOf (sampleCoinbase 1 1532361095 COIN []) 0 [⟨COIN, sampleKey⟩]

def ownStake : CTransaction := spendingOf ownPayment 0 [⟨0, []⟩, ⟨COIN, sampleKey⟩]

/-- Spends the coinstake of the block before. -/
def earlyPayment : CTransaction := spendingOf ownStake 1 [⟨COIN, sampleKey⟩]

def ownCall : ConnectCall :=
  chainCall 1 1 [sampleCoinbase 1 1532361095 COIN [], ownPayment, ownStake]

def earlyCall : ConnectCall := chainCall 2 2 [sampleCoinbase 2 1532361245 COIN [], earlyPayment]

/-- Two ways around the rule. The first block spends its own coinbase. The second spends a
coinstake one block deep: it is refused as long as the coinstake's entry is in the cache, and
accepted once the cache has been flushed. -/
theorem immature_spends_accepted :
    ∃ s₁ s₂ s₃, (start 1000).step sampleKeys (.connect ownCall) = some s₁ ∧
      s₁.step sampleKeys (.reload fun _ => true) = some s₂ ∧
      s₂.step sampleKeys (.connect earlyCall) = some s₃ ∧
      s₁.step sampleKeys (.connect earlyCall) = none ∧
      ownCall.Fits sampleHash (.start 1000) ∧ earlyCall.Fits sampleHash s₂ ∧
      ¬ SpendsMature sampleHash [] ownCall.block ∧
      ¬ SpendsMature sampleHash s₂.blocks earlyCall.block := by
  have hrun : (((start 1000).step sampleKeys (.connect ownCall)).bind fun s₁ =>
      (s₁.step sampleKeys (.reload fun _ => true)).bind fun s₂ =>
        (s₂.step sampleKeys (.connect earlyCall)).map fun _ =>
          ((s₁.step sampleKeys (.connect earlyCall)).isNone, s₂.blocks, s₂.view.hashBlock)) =
      some (true, [ownCall.block], (sampleIndex 1).hash) := by
    decide +kernel
  simp only [bind_eq_some_iff, map_eq_some_iff, Prod.mk.injEq] at hrun
  obtain ⟨s₁, h₁, s₂, h₂, s₃, h₃, hnone, hblocks, hbest⟩ := hrun
  refine ⟨s₁, s₂, s₃, h₁, h₂, h₃, isNone_iff_eq_none.mp hnone, ?_, ?_, ?_, ?_⟩
  · exact chainCall_fits (by decide) rfl rfl (by decide)
  · exact chainCall_fits (by decide) (by rw [hblocks]; rfl) hbest (by decide)
  · intro hmature
    have hdeep := hmature 1 ownPayment rfl (by decide +kernel) _ (mem_singleton_self _)
      (sampleCoinbase 1 1532361095 COIN []) 1 (by decide +kernel) (by decide +kernel)
    revert hdeep
    decide
  · rw [hblocks]
    intro hmature
    have hdeep := hmature 1 earlyPayment rfl (by decide +kernel) _ (mem_singleton_self _)
      ownStake 1 (by decide +kernel) (by decide +kernel)
    revert hdeep
    decide

/-! ## Fifty blocks -/

def quietCoinbase (nHeight : Nat) : CTransaction :=
  sampleCoinbase nHeight (sampleIndex nHeight).nTime COIN []

/-- A block with nothing but a coinbase. -/
def quietCall (nHeight : Nat) : ConnectCall :=
  chainCall nHeight (UInt32.ofNat nHeight) [quietCoinbase nHeight]

/-- That many of them. -/
def quietRun : Nat → Option ChainState
  | 0 => some (.start 1000)
  | n + 1 => (quietRun n).bind fun s => s.step sampleKeys (.connect (quietCall (n + 1)))

theorem quietCall_spendsNoOwn (n : Nat) : SpendsNoOwn sampleHash (quietCall n).block := by
  intro k tx htx hcb
  cases k with
  | zero =>
    injection htx with htx
    rw [← htx] at hcb
    cases hcb
  | succ k => cases htx

theorem quietRun_safelyReached (hn : n ≤ 50) (h : quietRun n = some s) :
    SafelyReached sampleHash sampleKeys 1000 s ∧ s.blocks.length = n ∧
      s.view.hashBlock = (sampleIndex n).hash := by
  induction n generalizing s with
  | zero =>
    cases h
    exact ⟨.start, rfl, rfl⟩
  | succ n ih =>
    rw [quietRun, bind_eq_some_iff] at h
    obtain ⟨t, ht, hstep⟩ := h
    obtain ⟨hreached, hblocks, hbest⟩ := ih (by omega) ht
    have hfits : (quietCall (n + 1)).Fits sampleHash t :=
      chainCall_fits (by omega) hblocks hbest (by
        rw [forall_mem_singleton]
        show IsInt32 2
        decide)
    obtain ⟨r, hrun, hs⟩ := step_connect_eq_some hstep
    obtain ⟨_, _, _, _, -, hr⟩ := connectBlock_spec hfits.not_genesis hrun
    refine ⟨hreached.step (a := .connect _) hfits (quietCall_spendsNoOwn _) hstep, ?_, ?_⟩
    · rw [hs, length_cons, hblocks]
    · rw [hs, hr]
      show BitVec.ofNat 256 (1000 + (UInt32.ofNat (n + 1)).toNat) = BitVec.ofNat 256 (1000 + (n + 1))
      rw [UInt32.toNat_ofNat_of_lt' (by
        show n + 1 < 2 ^ 32
        omega)]

/-- Spends the first coinbase when it has just matured. -/
def matureCall : ConnectCall :=
  chainCall 51 51 [quietCoinbase 51, spendingOf (quietCoinbase 1) 0 [⟨COIN, sampleKey⟩]]

/-- After fifty blocks the first coinbase can be spent, and this is no early spend. -/
theorem first_coinbase_matures : ∃ s r, quietRun 50 = some s ∧ matureCall.run s.view = .ok r ∧
      SpendsMature sampleHash s.blocks matureCall.block := by
  have hrun : (quietRun 50).any (fun s => accepts (matureCall.run s.view)) = true := by
    decide +kernel
  obtain ⟨s, hquiet, hlast⟩ := (any_eq_true _ _).mp hrun
  obtain ⟨r, haccepted⟩ := accepts_iff.mp hlast
  obtain ⟨hreached, hblocks, hbest⟩ := quietRun_safelyReached le_rfl hquiet
  refine ⟨s, r, hquiet, haccepted, generated_spends_mature hreached
    (chainCall_fits (by decide) hblocks hbest (by decide)) ?_
    haccepted⟩
  intro k tx htx hcb i hi g hg
  match k, htx with
  | 0, htx =>
    injection htx with htx
    rw [← htx] at hcb
    cases hcb
  | 1, htx =>
    injection htx with htx
    subst htx
    rw [mem_singleton.mp hi, mem_singleton.mp hg]
    decide +kernel

end Chratos
