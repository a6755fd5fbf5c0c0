import Chratos.Coins.Disk

/-!
# Chratos — restoring undoes spending

`ApplyTxInUndo` is to bring an entry back to what it was before `Spend`, from a record that
has been on disk. It cannot bring back a negative version, and the coinstake flag is not in the
record, so the entry that comes back is the same only as far as `CCoins.Same` says.

The entries must be such as views hold (`CCoins.Sound`): cleaned up, with blank outputs where
outputs were spent, and with a height, because a record with height zero reads as a record
without metadata.
-/

namespace Chratos

open Outcome List CTxOut CCoins Function CCoins CCoinsView

/-! ## Entries -/

/-- What every entry of a view is. -/
structure CCoins.Sound (c : CCoins) : Prop where
  clean : c.cleanup = c
  outs : ∀ o ∈ c.vout, o = null ∨ o.Storable
  nHeight_pos : c.vout ≠ [] → 0 < c.nHeight
  nHeight_lt : c.nHeight < 2 ^ 31
  nVersion_int : IsInt32 c.nVersion

/-- `c'` is `c` up to what a round trip over the disk loses. -/
structure CCoins.Same (c c' : CCoins) : Prop where
  vout : c'.vout = c.vout
  fCoinBase : c.vout ≠ [] → c'.fCoinBase = c.fCoinBase
  nHeight : c.vout ≠ [] → c'.nHeight = c.nHeight
  nVersion : c.vout ≠ [] → c'.nVersion = c.nVersion ∨ c'.nVersion = storedVersion c.nVersion

theorem CCoins.Same.refl (c : CCoins) : c.Same c :=
  ⟨rfl, fun _ => rfl, fun _ => rfl, fun _ => .inl rfl⟩

theorem CCoins.cleanup_cleanup (c : CCoins) : c.cleanup.cleanup = c.cleanup := by
  unfold cleanup
  rw [rdropWhile_idempotent]

variable {c : CCoins} {o : CTxOut} {l : List CTxOut} {n : Nat} {tx : CTransaction} {view : CCoinsView}
  {txid : Uint256}

theorem CCoins.Sound.vout_clean (h : c.Sound) : c.vout.rdropWhile isNull = c.vout :=
  congrArg vout h.clean

/-- Blank outputs are all alike. -/
theorem CCoins.Sound.eq_null (h : c.Sound) (ho : o ∈ c.vout) (hnull : o.isNull = true) :
    o = null := by
  rcases h.outs o ho with heq | hstorable
  · exact heq
  · rw [not_isNull_of_moneyRange hstorable.1] at hnull
    cases hnull

/-! ## Outputs by position -/

/-- What cleaning up drops is blank. -/
theorem exists_eq_rdropWhile_append (h : ∀ o ∈ l, o.isNull = true → o = null) :
    ∃ k, l = l.rdropWhile isNull ++ List.replicate k null := by
  induction l using reverseRecOn with
  | nil => exact ⟨0, rfl⟩
  | append_singleton l o ih =>
    cases ho : o.isNull with
    | true =>
      obtain ⟨k, hk⟩ := ih fun x hx => h x (mem_append_left _ hx)
      have hnull : o = null := h o (by simp) ho
      refine ⟨k + 1, ?_⟩
      rw [rdropWhile_concat_pos _ _ _ ho, replicate_succ', ← append_assoc, ← hk, hnull]
    | false =>
      rw [rdropWhile_concat_neg _ _ _ (by simp [ho])]
      simp

/-- Cleaning up keeps every output that is not blank in its place. -/
theorem getElem?_rdropWhile (hn : l[n]? = some o) (ho : o.isNull = false) :
    (l.rdropWhile isNull)[n]? = some o := by
  induction l using reverseRecOn with
  | nil => exact hn
  | append_singleton l a ih =>
    cases ha : a.isNull with
    | false =>
      rw [rdropWhile_concat_neg _ _ _ (by simp [ha])]
      exact hn
    | true =>
      rw [rdropWhile_concat_pos _ _ _ ha]
      refine ih ?_
      rcases lt_or_ge n l.length with hlt | hge
      · rwa [getElem?_append_left hlt] at hn
      · rw [getElem?_append_right hge] at hn
        have hmem := mem_singleton.mp (mem_of_getElem? hn)
        rw [hmem, ha] at ho
        cases ho

/-- Blanking an output, cleaning up, padding with blanks up to its place and putting it back
gives the outputs as they were. -/
theorem restore_vout (hnull : ∀ o ∈ l, o.isNull = true → o = null)
    (hclean : l.rdropWhile isNull = l) (hn : l[n]? = some o) :
    (((l.set n null).rdropWhile isNull) ++ List.replicate
      (n + 1 - ((l.set n null).rdropWhile isNull).length) null).set n o = l := by
  obtain ⟨hlt, hget⟩ := List.getElem?_eq_some_iff.mp hn
  have hset : ∀ x ∈ l.set n null, x.isNull = true → x = null := by
    intro x hx hxnull
    rcases mem_or_eq_of_mem_set hx with hmem | heq
    · exact hnull x hmem hxnull
    · exact heq
  obtain ⟨k, hk⟩ := exists_eq_rdropWhile_append hset
  generalize hp : (l.set n null).rdropWhile isNull = p at hk
  have hlen : l.length = p.length + k := by
    have := congrArg length hk
    simpa using this
  -- Either nothing was dropped, or the output was the last one.
  have hpad : n + 1 - p.length = k := by
    by_cases hk0 : k = 0
    · omega
    · have hne : l ≠ [] := ne_nil_of_length_pos (by omega)
      have hlast : ¬ (l.getLast hne).isNull = true := rdropWhile_eq_self_iff.mp hclean hne
      have hn1 : n + 1 = l.length := by
        by_contra hlt'
        apply hlast
        have hidx : (l.set n null)[l.length - 1]? = l[l.length - 1]? := by
          rw [getElem?_set_ne (by omega)]
        have hblank : (l.set n null)[l.length - 1]? = some null := by
          rw [hk, getElem?_append_right (by omega), getElem?_replicate_of_lt (by omega)]
        rw [hidx, ← getLast?_eq_getElem?, getLast?_eq_some_getLast hne] at hblank
        injection hblank with hblank
        rw [hblank]
        rfl
      omega
  rw [hpad, ← hk, set_set, ← hget, set_getElem_self]

/-! ## One output of one entry -/

theorem CCoins.spend_vout (h : c.isAvailable n = true) :
    (c.spend n).vout = (c.vout.set n null).rdropWhile isNull := by
  rw [spend, if_pos h]
  rfl

theorem CCoins.spend_fields (c : CCoins) (n : Nat) :
    (c.spend n).fCoinBase = c.fCoinBase ∧ (c.spend n).fCoinStake = c.fCoinStake ∧
      (c.spend n).nHeight = c.nHeight ∧ (c.spend n).nVersion = c.nVersion := by
  unfold spend
  split
  · exact ⟨rfl, rfl, rfl, rfl⟩
  · exact ⟨rfl, rfl, rfl, rfl⟩

/-- A cleaned-up list of outputs is empty or has one that is unspent. -/
theorem all_isNull_rdropWhile (h : (l.rdropWhile isNull) ≠ []) :
    (l.rdropWhile isNull).all isNull = false := by
  rw [all_eq_false]
  exact ⟨_, getLast_mem h, rdropWhile_last_not _ _ h⟩

theorem CCoins.cleanup_isAvailable (h : c.cleanup.isAvailable n = true) : c.isAvailable n = true := by
  obtain ⟨o, ho, hnull⟩ := isAvailable_iff.mp h
  obtain ⟨t, ht⟩ := rdropWhile_prefix isNull c.vout
  refine isAvailable_iff.mpr ⟨o, ?_, hnull⟩
  have hget : (c.vout.rdropWhile isNull)[n]? = some o := ho
  rw [← ht, getElem?_append_left (List.getElem?_eq_some_iff.mp hget).1]
  exact hget

/-- A spent output is not available any more, and none becomes so. -/
theorem CCoins.spend_isAvailable {m : Nat} (h : (c.spend m).isAvailable n = true) :
    c.isAvailable n = true ∧ n ≠ m := by
  unfold spend at h
  split at h
  · obtain ⟨o, ho, hnull⟩ := isAvailable_iff.mp (cleanup_isAvailable h)
    have hset : (c.vout.set m null)[n]? = some o := ho
    by_cases hmn : m = n
    · subst hmn
      obtain ⟨hlt, hget⟩ := List.getElem?_eq_some_iff.mp hset
      rw [getElem_set_self] at hget
      rw [← hget] at hnull
      cases hnull
    · rw [getElem?_set_ne hmn] at hset
      exact ⟨isAvailable_iff.mpr ⟨o, hset, hnull⟩, Ne.symm hmn⟩
  · rename_i hnot
    exact ⟨h, fun heq => hnot (heq ▸ h)⟩

/-- **One output.** Restoring a spent output from its stored record. -/
theorem restoreOutput_spend {e : CCoins} (hc : c.Sound) (ho : c.output? n = some o)
    (he : (c.spend n).Same e) : c.Same (restoreOutput (undoOf o (c.spend n)).stored n e).1.cleanup ∧
      (restoreOutput (undoOf o (c.spend n)).stored n e).2 = true := by
  have hav := isAvailable_of_output? ho
  obtain ⟨hget, -⟩ := output?_eq_some.mp ho
  obtain ⟨hcb, -, hh, hv⟩ := c.spend_fields n
  have hback := restore_vout (fun x hx => hc.eq_null hx) hc.vout_clean hget
  rw [← spend_vout hav] at hback
  have hevout := he.vout
  by_cases hlast : (c.spend n).vout = []
  · -- The record has the metadata, and the entry is rebuilt from it.
    have hpos := hc.nHeight_pos (vout_ne_nil ho)
    rw [hlast] at hevout hback
    have hundo : (undoOf o (c.spend n)).stored =
        { txout := o, fCoinBase := c.fCoinBase, nHeight := c.nHeight,
          nVersion := storedVersion c.nVersion } := by
      rw [undoOf, if_pos hlast, CTxInUndo.stored, hcb, hh, hv, if_pos hpos]
    rw [hundo]
    have hpruned : e.isPruned = true := by rw [isPruned, hevout]; rfl
    simp only [restoreOutput, ne_eq, hpos.ne', not_false_eq_true, if_true, hpruned]
    have hvout : (([] : List CTxOut) ++ replicate (n + 1 - ([] : List CTxOut).length)
        null).set n o = c.vout := hback
    rw [hvout]
    refine ⟨⟨hc.vout_clean, fun _ => rfl, fun _ => rfl, fun _ => .inr rfl⟩, rfl⟩
  · -- The entry is still there, and only the output is put back.
    have hundo : (undoOf o (c.spend n)).stored = { txout := o } := by
      rw [undoOf, if_neg hlast]
      rfl
    rw [hundo]
    have hpruned : e.isPruned = false := by
      rw [isPruned, hevout, spend_vout hav]
      rw [spend_vout hav] at hlast
      exact all_isNull_rdropWhile hlast
    have havail : e.isAvailable n = false := by
      rw [Bool.eq_false_iff, isAvailable, hevout]
      exact fun h => (spend_isAvailable h).2 rfl
    simp only [restoreOutput, ne_eq, not_true_eq_false, if_false, hpruned, havail, Bool.not_false,
      Bool.and_self, and_true]
    rw [hevout, hback]
    refine ⟨hc.vout_clean, fun _ => ?_, fun _ => ?_, fun _ => ?_⟩
    · rw [← hcb]
      exact he.fCoinBase hlast
    · rw [← hh]
      exact he.nHeight hlast
    · rw [← hv]
      exact he.nVersion hlast

/-! ## Entries stay sound -/

theorem CCoins.Sound.clear : clear.Sound where
  clean := rfl
  outs := nofun
  nHeight_pos := nofun
  nHeight_lt := by decide
  nVersion_int := by decide

theorem CCoins.Sound.spend (h : c.Sound) (n : Nat) : (c.spend n).Sound := by
  obtain ⟨-, -, hh, hv⟩ := c.spend_fields n
  by_cases hav : c.isAvailable n = true
  · have hmem : ∀ o ∈ (c.spend n).vout, o ∈ c.vout ∨ o = null := by
      intro o ho
      rw [spend_vout hav] at ho
      exact mem_or_eq_of_mem_set ((List.rdropWhile_prefix _ _).subset ho)
    refine ⟨?_, ?_, ?_, by rw [hh]; exact h.nHeight_lt, by rw [hv]; exact h.nVersion_int⟩
    · rw [CCoins.spend, if_pos hav, cleanup_cleanup]
    · intro o ho
      rcases hmem o ho with hold | hnew
      · exact h.outs o hold
      · exact .inl hnew
    · intro _
      rw [hh]
      obtain ⟨o, ho, -⟩ := isAvailable_iff.mp hav
      exact h.nHeight_pos (ne_nil_of_mem (mem_of_getElem? ho))
  · rw [CCoins.spend, if_neg hav]
    exact h

/-- An output that is kept on entry can be spent, so its script is of legal size. -/
theorem CCoins.dropUnspendable_storable (h : moneyRange o.nValue = true) :
    dropUnspendable o = null ∨ (dropUnspendable o).Storable := by
  unfold dropUnspendable
  split
  · exact .inl rfl
  · rename_i hspendable
    refine .inr ⟨h, ?_⟩
    by_contra hlong
    apply hspendable
    simp only [isUnspendable, decide_eq_true_eq]
    exact .inr (by omega)

variable {nHeight : Nat} {f : CCoins → CCoins} {view' : CCoinsView} {undo : CTxUndo}

theorem CCoins.Sound.fromTx (hrange : ∀ o ∈ tx.vout, moneyRange o.nValue = true)
    (hversion : IsInt32 tx.nVersion) (hpos : 0 < nHeight) (hlt : nHeight < 2 ^ 31) :
    (fromTx tx nHeight).Sound where
  clean := cleanup_cleanup _
  outs := by
    intro o ho
    have hmem : o ∈ tx.vout.map dropUnspendable := (List.rdropWhile_prefix _ _).subset ho
    obtain ⟨x, hx, rfl⟩ := mem_map.mp hmem
    exact dropUnspendable_storable (hrange x hx)
  nHeight_pos := fun _ => hpos
  nHeight_lt := hlt
  nVersion_int := hversion

/-! ## Views -/

def CCoinsView.Sound (view : CCoinsView) : Prop := ∀ txid, (view.coins txid).Sound

/-- `view'` is `view` up to what a round trip over the disk loses. -/
def CCoinsView.Same (view view' : CCoinsView) : Prop :=
  ∀ txid, (view.coins txid).Same (view'.coins txid)

theorem CCoins.Sound.cleanup (h : c.Sound) : c.cleanup.Sound := by rwa [h.clean]

theorem CCoinsView.Sound.modifyCoins (h : view.Sound) (hf : (f (view.coins txid)).Sound) :
    (view.modifyCoins txid f).Sound :=
  (forall_update_iff _ fun _ => CCoins.Sound).mpr ⟨hf.cleanup, fun t _ => h t⟩

theorem CCoinsView.Sound.modifyNewCoins (h : view.Sound) (hf : (f clear).Sound) :
    (view.modifyNewCoins txid f).Sound :=
  (forall_update_iff _ fun _ => CCoins.Sound).mpr ⟨hf.cleanup, fun t _ => h t⟩

/-- **One input.** The record of a spent input brings back the entry it was spent from. -/
theorem applyTxInUndo_spend {w : CCoinsView} (h : view.Sound) {out : COutPoint}
    (ho : view.output? out = some o) (hw : (view.modifyCoins out.hash (·.spend out.n.toNat)).Same w) :
    let undo := (undoOf o ((view.coins out.hash).spend out.n.toNat)).stored
    view.Same (applyTxInUndo undo w out).1 ∧ (applyTxInUndo undo w out).2 = true := by
  have hentry := hw out.hash
  rw [modifyCoins_coins_self, ((h out.hash).spend _).clean] at hentry
  obtain ⟨hsame, hclean⟩ := restoreOutput_spend (h out.hash) ho hentry
  refine ⟨(forall_update_iff _ fun t => (view.coins t).Same).mpr ⟨hsame, fun t ht => ?_⟩, hclean⟩
  have hother := hw t
  rwa [modifyCoins_coins_of_ne _ _ ht] at hother

/-- The record of a spent output can be written. -/
theorem undoOf_storable (h : c.Sound) (ho : c.output? n = some o) :
    (undoOf o (c.spend n)).Storable := by
  obtain ⟨hget, hnull⟩ := output?_eq_some.mp ho
  have hout : o.Storable := by
    rcases h.outs o (mem_of_getElem? hget) with rfl | hstorable
    · cases hnull
    · exact hstorable
  have hspent := h.spend n
  unfold undoOf
  split
  · exact ⟨hout, hspent.nHeight_lt, hspent.nVersion_int⟩
  · exact ⟨hout, by norm_num, show IsInt32 0 by decide⟩

/-! ## Nothing becomes available by spending -/

theorem CCoins.Sound.vout_eq_nil (h : c.Sound) (hnone : ∀ n, c.isAvailable n = false) :
    c.vout = [] := by
  by_contra hne
  have hlast := rdropWhile_eq_self_iff.mp h.vout_clean hne
  have hav : c.isAvailable (c.vout.length - 1) = true := by
    refine isAvailable_iff.mpr ⟨c.vout.getLast hne, ?_, by simpa using hlast⟩
    rw [← getLast?_eq_getElem?, getLast?_eq_some_getLast hne]
  rw [hnone] at hav
  cases hav

theorem CCoins.isAvailable_of_vout_eq_nil (h : c.vout = []) (n : Nat) : c.isAvailable n = false := by
  rw [isAvailable, h]
  rfl

/-- What has less in it than an empty entry is empty. -/
theorem CCoins.Sound.vout_eq_nil_of_le {d : CCoins} (h : c.Sound) (hd : d.vout = [])
    (hle : ∀ n, c.isAvailable n = true → d.isAvailable n = true) : c.vout = [] := by
  refine h.vout_eq_nil fun n => Bool.eq_false_iff.mpr fun hav => ?_
  have hfalse := hle n hav
  rw [isAvailable_of_vout_eq_nil hd] at hfalse
  cases hfalse

/-- One input takes away what it spends and gives nothing. -/
theorem spendInput_isAvailable {s t : CCoinsView × CTxUndo} {txin : CTxIn}
    (h : spendInput s txin = .ok t) (hav : (t.1.coins txid).isAvailable n = true) :
    (s.1.coins txid).isAvailable n = true ∧
      ¬ (txid = txin.prevout.hash ∧ n = txin.prevout.n.toNat) := by
  obtain ⟨o, ho, ht, -⟩ := spendInput_eq_ok h
  rw [ht] at hav
  by_cases htxid : txid = txin.prevout.hash
  · subst htxid
    rw [modifyCoins_coins_self] at hav
    exact (spend_isAvailable (cleanup_isAvailable hav)).imp_right fun hne hboth => hne hboth.2
  · rw [modifyCoins_coins_of_ne _ _ htxid] at hav
    exact ⟨hav, fun hboth => htxid hboth.1⟩

/-- What is unspent after all inputs was so before, and is none of them. -/
theorem spendInputs_isAvailable (h : spendInputs view tx = .ok (view', undo))
    (hav : (view'.coins txid).isAvailable n = true) : (view.coins txid).isAvailable n = true ∧
      (tx.isCoinBase = false → ∀ i ∈ tx.vin, ¬ (txid = i.prevout.hash ∧ n = i.prevout.n.toNat)) := by
  unfold spendInputs at h
  split at h
  · rename_i hcb
    cases h
    exact ⟨hav, fun hcb' => by rw [hcb] at hcb'; cases hcb'⟩
  · -- Along the loop: what is available now was at the start, and is none of the inputs so far.
    have hloop := foldlM_ok_rec (fun done (s : CCoinsView × CTxUndo) =>
      (s.1.coins txid).isAvailable n = true → (view.coins txid).isAvailable n = true ∧
        ∀ i ∈ done, ¬ (txid = i.prevout.hash ∧ n = i.prevout.n.toNat)) ?_
      (fun hav => ⟨hav, nofun⟩) h
    · exact ⟨(hloop hav).1, fun _ => (hloop hav).2⟩
    · intro done i s t hs hstep hav
      obtain ⟨hav', hne⟩ := spendInput_isAvailable hstep hav
      obtain ⟨hstart, hdone⟩ := hs hav'
      exact ⟨hstart, forall_mem_append.mpr ⟨hdone, by simpa using hne⟩⟩

/-- A transaction takes away what it spends and gives nothing but its own outputs. -/
theorem updateCoins_isAvailable (h : updateCoins txid tx view nHeight = .ok (view', undo))
    {t : Uint256} (ht : t ≠ txid) (hav : (view'.coins t).isAvailable n = true) :
    (view.coins t).isAvailable n = true ∧
      (tx.isCoinBase = false → ∀ i ∈ tx.vin, ¬ (t = i.prevout.hash ∧ n = i.prevout.n.toNat)) := by
  obtain ⟨spent, hspent, hview'⟩ := updateCoins_eq_ok h
  rw [hview', modifyNewCoins_coins_of_ne _ _ ht] at hav
  exact spendInputs_isAvailable hspent hav

end Chratos
