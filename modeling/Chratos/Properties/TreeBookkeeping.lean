import Chratos.Chain.BestChain
import Chratos.Chain.CheckBlockIndex
import Chratos.Chain.Genesis
import Chratos.Chain.Invalidate

/-!
# Chratos — `CheckBlockIndex` after any calls

From genesis on the node adds headers and data, activates the best chain, invalidates blocks on the
operator's order and prunes files. `Call.Admitted` is what the callers see to. It does not suffice for
the assertions of `CheckBlockIndex`: `ReceivedBlockTransactions` lists a block under an unlinked
parent only if the parent has not failed. A failed parent that has its data is linked later, when its
own ancestors' data arrives; the block above it is not, and its `nChainTx` stays zero.

`Call.Orderly` is what a call has to meet beyond that. A run of such calls keeps the bookkeeping
(`Reached.sound`), and with it the assertions.
-/

namespace Chratos

namespace BlockTree

open Option List

variable {ι : Type} [LinearOrder ι]

/-! ## Runs -/

def MIN_BLOCKS_TO_KEEP : Nat := 288

inductive Call (ι : Type) where
  | addToBlockIndex (block : Header ι)
  | receivedBlockTransactions (b : ι) (nVtx file : Nat)
  | activateBestChain
  | invalidateBlock (b : ι)
  | pruneOneBlockFile (fileNumber : Nat)

def Call.run (v : Validator ι) (s : BlockTree ι) : Call ι → Except (Halted ι) (BlockTree ι)
  | addToBlockIndex block => .ok (s.addToBlockIndex block)
  | receivedBlockTransactions b nVtx file => .ok (s.receivedBlockTransactions b nVtx file)
  | activateBestChain => s.activateBestChain v
  | invalidateBlock b => s.invalidateBlock b
  | pruneOneBlockFile fileNumber => .ok (s.pruneOneBlockFile fileNumber)

/-- What the callers see to. -/
def Call.Admitted (v : Validator ι) (s : BlockTree ι) : Call ι → Prop
  | addToBlockIndex block => ∃ p ∈ s.mapBlockIndex, block.hashPrevBlock = some p ∧
      (s.nStatus p).failed = false
  | receivedBlockTransactions b nVtx _ =>
      b ∈ s.mapBlockIndex ∧ (s.nStatus b).haveData = false ∧ 0 < nVtx
  | activateBestChain => True
  | invalidateBlock b => b ∈ s.mapBlockIndex ∧ b ≠ v.hashGenesisBlock
  | pruneOneBlockFile fileNumber => ∀ b ∈ s.mapBlockIndex, s.nFile b = fileNumber →
      (s.nStatus b).haveData = true → ∀ t ∈ s.tip, s.nHeight b + MIN_BLOCKS_TO_KEEP ≤ s.nHeight t

instance (v : Validator ι) (s : BlockTree ι) : (c : Call ι) → Decidable (c.Admitted v s)
  | .addToBlockIndex _ => inferInstanceAs (Decidable (∃ p ∈ _, _ ∧ _))
  | .receivedBlockTransactions _ _ _ => inferInstanceAs (Decidable (_ ∧ _ ∧ _))
  | .activateBestChain => inferInstanceAs (Decidable True)
  | .invalidateBlock _ => inferInstanceAs (Decidable (_ ∧ _))
  | .pruneOneBlockFile _ => inferInstanceAs (Decidable (∀ b ∈ _, _ → _ → ∀ t ∈ _, _))

/-- What a call has to meet so that the assertions hold later. -/
def Call.Orderly (s : BlockTree ι) : Call ι → Prop
  | addToBlockIndex block => ∀ p ∈ block.hashPrevBlock,
      s.nChainWork p < (s.nChainWork p + getBlockProof block.nBits) % 2 ^ 256
  | receivedBlockTransactions b nVtx _ => s.Receivable b nVtx
  | activateBestChain => True
  | invalidateBlock _ => True
  | pruneOneBlockFile fileNumber => ∀ b ∈ s.mapBlockIndex, s.nFile b = fileNumber → s.HasData b →
      s.Linked b

/-- The states that calls with a property lead to from genesis on, without a failure of the disk. -/
inductive Reached (v : Validator ι) (good : BlockTree ι → Call ι → Prop) : BlockTree ι → Prop
  | init {nBits : UInt32} {nVtx : Nat} {s : BlockTree ι} (hpos : 0 < nVtx) (hsmall : nVtx < 2 ^ 32)
    (hok : initBlockIndex v nBits nVtx = .ok s) : Reached v good s
  | call {s s' : BlockTree ι} (c : Call ι) (hreached : Reached v good s) (hadmitted : c.Admitted v s)
    (hgood : good s c) (hok : c.run v s = .ok s') : Reached v good s'

/-! ## The bookkeeping along a run -/

variable {v : Validator ι} {s s' : BlockTree ι} {t : ι}

/-- Activation lists only blocks that have been linked. -/
theorem Moved.unlinked_of (hmoved : s.Moved s') (h : s.Unlinked s.mapBlocksUnlinked []) :
    s'.Unlinked s'.mapBlocksUnlinked [] := by
  obtain ⟨extra, heq, hextra⟩ := hmoved.unlinked
  have hlinked : ∀ b, s'.Linked b ↔ s.Linked b := fun b => by
    unfold BlockIndex.Linked
    rw [hmoved.nChainTx]
  rw [heq]
  refine ⟨fun b hnot => ?_, fun b hb htx hnot => ?_⟩
  · rw [hlinked b] at hnot
    have hzero : (extra.map Prod.snd).count b = 0 := by
      refine count_eq_zero.mpr fun hmem => ?_
      obtain ⟨e, he, rfl⟩ := mem_map.mp hmem
      exact hnot (hextra e he)
    rw [map_append, count_append, hzero, add_zero]
    exact h.once b hnot
  · rw [hmoved.mapBlockIndex] at hb
    rw [hmoved.nTx] at htx
    rw [hlinked b] at hnot
    refine (h.waits b hb htx hnot).imp (.append · extra) (Or.imp_right ?_)
    rintro ⟨p, hp, hfailed, hzero⟩
    refine ⟨p, ?_, hmoved.failed p hfailed, ?_⟩
    · rw [hmoved.header]
      exact hp
    · rw [hmoved.nTx]
      exact hzero

theorem Sound.activateBestChain (hintact : v.Intact) (h : s.Sound v t)
    (hok : s.activateBestChain v = .ok s') : ∃ t', s'.Sound v t' := by
  rcases h.kept.activateBestChain_spec hintact with ⟨e, herr, -⟩ | ⟨s'', t', hok', hkept, -, hmoved, -⟩
  · rw [hok] at herr
    cases herr
  · rw [hok] at hok'
    obtain rfl := Except.ok.inj hok'
    exact ⟨t', hkept, hmoved.unlinked_of h.unlinked⟩

/-- A call that returns `true` keeps the bookkeeping, if it is made when `Call.Orderly` says. -/
theorem Sound.call (hintact : v.Intact) (h : s.Sound v t) (c : Call ι) (hadmitted : c.Admitted v s)
    (horderly : c.Orderly s) (hok : c.run v s = .ok s') : ∃ t', s'.Sound v t' := by
  cases c with
  | addToBlockIndex block =>
    obtain ⟨p, hp, hprev, -⟩ := hadmitted
    obtain rfl := Except.ok.inj hok
    exact ⟨t, h.addToBlockIndex hp hprev (horderly p hprev)⟩
  | receivedBlockTransactions b nVtx file =>
    obtain rfl := Except.ok.inj hok
    exact ⟨t, h.receivedBlockTransactions horderly⟩
  | activateBestChain => exact h.activateBestChain hintact hok
  | invalidateBlock b =>
    rcases h.invalidateBlock hadmitted.1 hadmitted.2 with ⟨e, herr, -⟩ | ⟨s'', t', hok', hsound⟩
    · exact absurd (hok.symm.trans herr) nofun
    · obtain rfl := Except.ok.inj (hok.symm.trans hok')
      exact ⟨t', hsound⟩
  | pruneOneBlockFile fileNumber =>
    obtain rfl := Except.ok.inj hok
    exact ⟨t, h.pruneOneBlockFile horderly⟩

/-- The bookkeeping is kept from the first start on. -/
theorem Reached.sound (hintact : v.Intact) (hgenesis : v.connectBlock v.hashGenesisBlock = .valid)
    (h : Reached v Call.Orderly s) : ∃ t, s.Sound v t := by
  induction h with
  | init hpos hsmall hok =>
    obtain ⟨s', hok', hsound⟩ := initBlockIndex_spec hgenesis hpos hsmall
    obtain rfl := Except.ok.inj (hok'.symm.trans hok)
    exact ⟨_, hsound⟩
  | call c _ hadmitted hgood hok ih =>
    obtain ⟨t, hsound⟩ := ih
    exact hsound.call hintact c hadmitted hgood hok

/-- After a run of orderly calls `ActivateBestChain` returns, unless the disk fails, and every assertion
of `CheckBlockIndex` holds. -/
theorem checkBlockIndex_of_reached (hplain : v.Plain)
    (hgenesis : v.connectBlock v.hashGenesisBlock = .valid) (h : Reached v Call.Orderly s) :
    (∃ e, s.activateBestChain v = .error e ∧ e.stop = .disk) ∨
      ∃ s', s.activateBestChain v = .ok s' ∧ s'.checkBlockIndex v = true := by
  obtain ⟨t, hsound⟩ := h.sound hplain.intact hgenesis
  rcases hsound.kept.activateBestChain_spec hplain.intact with
    ⟨e, herr, hexcused⟩ | ⟨s', t', hok, hkept, -, hmoved, -⟩
  · exact .inl ⟨e, herr, hexcused.disk hplain⟩
  · exact .inr ⟨s', hok, hkept.checkBlockIndex (hmoved.unlinked_of hsound.unlinked)⟩

/-- Every block is valid. -/
def allValid : Validator Nat where
  hashGenesisBlock := 0
  connectBlock := fun _ => .valid

theorem allValid_intact : allValid.Intact := nofun

/-- The tree a call leaves, whether or not it comes to its end. -/
def treeOf : Except (Halted ι) (BlockTree ι) → BlockTree ι
  | .ok s => s
  | .error e => e.tree

omit [LinearOrder ι] in
theorem eq_ok_treeOf {result : Except (Halted ι) (BlockTree ι)} (h : result.isOk = true) :
    result = .ok (treeOf result) := by
  cases result with
  | ok s => rfl
  | error e => cases h

/-- Genesis, and a header on top of it. -/
def oneHeader : BlockTree Nat :=
  (treeOf (initBlockIndex allValid 0x207fffff 1)).addToBlockIndex ⟨1, some 0, 0x207fffff⟩

/-- The data of the one header arrives: a run of orderly calls. -/
theorem reached_oneHeader :
    Reached allValid Call.Orderly (oneHeader.receivedBlockTransactions 1 1 0) := by
  have hinit : Reached allValid Call.Orderly (treeOf (initBlockIndex allValid 0x207fffff 1)) :=
    .init (by decide) (by decide) (eq_ok_treeOf (by decide +kernel))
  have hheader : Reached allValid Call.Orderly oneHeader := by
    refine .call (.addToBlockIndex ⟨1, some 0, 0x207fffff⟩) hinit (by decide +kernel) ?_ rfl
    rintro p hp
    obtain rfl := some.inj hp
    decide +kernel
  have hparent : oneHeader.pprev 1 = some 0 := by decide +kernel
  refine .call (.receivedBlockTransactions 1 1 0) hheader (by decide +kernel) ?_ rfl
  refine ⟨by decide +kernel, by decide +kernel, by decide +kernel, by decide, fun p hp hf => ?_,
    by decide +kernel, fun htx => absurd htx (by decide +kernel)⟩
  obtain rfl := some.inj (hparent.symm.trans hp)
  exact absurd hf (by decide +kernel)

theorem checkBlockIndex_oneHeader :
    Reached allValid Call.Orderly (oneHeader.receivedBlockTransactions 1 1 0) ∧
    ((∃ e, (oneHeader.receivedBlockTransactions 1 1 0).activateBestChain allValid = .error e ∧
        e.stop = .disk) ∨
      ∃ s', (oneHeader.receivedBlockTransactions 1 1 0).activateBestChain allValid = .ok s' ∧
        s'.checkBlockIndex allValid = true) :=
  ⟨reached_oneHeader, checkBlockIndex_of_reached (fun _ => .inl rfl) rfl reached_oneHeader⟩

/-! ## Where the assertions fail -/

/-- Admitted calls one after another. -/
def runCalls (v : Validator ι) : List (Call ι) → BlockTree ι → Option (BlockTree ι)
  | [], s => some s
  | c :: cs, s =>
    if c.Admitted v s then
      match c.run v s with
      | .ok s' => runCalls v cs s'
      | .error _ => none
    else none

theorem Reached.runCalls : ∀ (cs : List (Call ι)) {s s' : BlockTree ι}, Reached v (fun _ _ => True) s →
    BlockTree.runCalls v cs s = some s' → Reached v (fun _ _ => True) s'
  | [], s, s', h, hrun => some.inj hrun ▸ h
  | c :: cs, s, s', h, hrun => by
    unfold BlockTree.runCalls at hrun
    split_ifs at hrun with hadmitted
    cases hok : c.run v s with
    | error e =>
      rw [hok] at hrun
      cases hrun
    | ok s₁ =>
      rw [hok] at hrun
      exact Reached.runCalls cs (.call c h hadmitted trivial hok) hrun

/-- Three headers in a row. The data of the second arrives and the block is invalidated; then comes the
data of the third, and at last that of the first. -/
def lateParent : List (Call Nat) :=
  [.addToBlockIndex ⟨1, some 0, 0x207fffff⟩, .addToBlockIndex ⟨2, some 1, 0x207fffff⟩,
    .addToBlockIndex ⟨3, some 2, 0x207fffff⟩, .receivedBlockTransactions 2 1 0, .invalidateBlock 2,
    .receivedBlockTransactions 3 1 0, .receivedBlockTransactions 1 1 0]

/-- What a fixed run ends with. -/
def outcome (v : Validator ι) (nBits : UInt32) (cs : List (Call ι)) :
    Option (BlockTree ι × BlockTree ι) :=
  match initBlockIndex v nBits 1 with
  | .ok s => (runCalls v cs s).bind fun s =>
    match s.activateBestChain v with
    | .ok s' => some (s, s')
    | .error _ => none
  | .error _ => none

variable {nBits : UInt32} {cs : List (Call ι)}

theorem outcome_eq_some {s s' : BlockTree ι} (h : outcome v nBits cs = some (s, s')) :
    Reached v (fun _ _ => True) s ∧ s.activateBestChain v = .ok s' := by
  unfold outcome at h
  cases hinit : initBlockIndex v nBits 1 with
  | error e =>
    rw [hinit] at h
    cases h
  | ok s₀ =>
    rw [hinit] at h
    obtain ⟨s₁, hrun, hend⟩ := bind_eq_some_iff.mp h
    have hreached : Reached v (fun _ _ => True) s₁ :=
      Reached.runCalls cs (.init (by decide) (by decide) hinit) hrun
    cases hact : s₁.activateBestChain v with
    | error e =>
      rw [hact] at hend
      cases hend
    | ok s₂ =>
      rw [hact] at hend
      obtain ⟨rfl, rfl⟩ := Prod.mk.inj (some.inj hend)
      exact ⟨hreached, hact⟩

theorem exists_of_outcome {P : BlockTree ι × BlockTree ι → Bool}
    (h : (outcome v nBits cs).any P = true) :
    ∃ s s', Reached v (fun _ _ => True) s ∧ s.activateBestChain v = .ok s' ∧ P (s, s') = true := by
  cases hout : outcome v nBits cs with
  | none =>
    rw [hout] at h
    cases h
  | some p =>
    rw [hout] at h
    obtain ⟨hreached, hok⟩ := outcome_eq_some hout
    exact ⟨p.1, p.2, hreached, hok, h⟩

/-- The third block has its data and all its ancestors have had theirs, but it is not linked. -/
theorem not_checkBlockIndex_lateParent :
    ∃ s s' : BlockTree Nat, Reached allValid (fun _ _ => True) s ∧
      s.activateBestChain allValid = .ok s' ∧ s'.checkBlockIndex allValid = false ∧
      s'.nTx 3 = 1 ∧ s'.nChainTx 3 = 0 ∧ s'.nChainTx 2 = 3 := by
  have hend : (outcome allValid 0x207fffff lateParent).any (fun p =>
      p.2.checkBlockIndex allValid = false ∧ p.2.nTx 3 = 1 ∧ p.2.nChainTx 3 = 0 ∧
      p.2.nChainTx 2 = 3) = true := by decide +kernel
  obtain ⟨s, s', hreached, hok, hP⟩ := exists_of_outcome hend
  exact ⟨s, s', hreached, hok, of_decide_eq_true hP⟩

end BlockTree

end Chratos
