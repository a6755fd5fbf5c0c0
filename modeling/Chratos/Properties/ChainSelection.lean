import Chratos.Properties.TreeBookkeeping

/-!
# Chratos — the best chain that can be had

`ActivateBestChain` returns, and then no block with more work than the tip could be switched to. For
that it is not enough that the tree passes `CheckBlockIndex`: candidates worse than the tip are
forgotten, so when the tip is given up for a branch that fails and cannot be connected again, what was
better than the fork is lost. The active chain has to be one that `ConnectBlock` would accept again.
-/

namespace Chratos

namespace BlockTree

variable {ι : Type} [LinearOrder ι] {v : Validator ι} {s : BlockTree ι} {t : ι}

/-- A block outside the active chain with the data of its whole branch, none of whose ancestors is
marked as failed. -/
def Usable (s : BlockTree ι) (b : ι) : Prop :=
  b ∈ s.mapBlockIndex ∧ s.contains b = false ∧ ∀ a ∈ s.lineage b, (s.nStatus a).failed = false ∧
      (s.contains a = false → (s.nStatus a).haveData = true)

instance (s : BlockTree ι) (b : ι) : Decidable (s.Usable b) := inferInstanceAs (Decidable (_ ∧ _ ∧ _))

/-- When the tip is the best candidate, no usable block has more work. -/
theorem Kept.work_le_of_usable (h : s.Kept v t t []) (htarget : s.Target t t) {b : ι}
    (husable : s.Usable b) : s.nChainWork b ≤ s.nChainWork t := by
  obtain ⟨hb, hoff, hlineage⟩ := husable
  have hpath : ∀ a, s.Anc a b → ¬ s.Failed a ∧ (¬ s.Anc a t → s.HasData a) := by
    intro a ha
    obtain ⟨hf, hd⟩ := hlineage a ((h.wf.rooted.mem_lineage hb).mpr ha)
    refine ⟨fun hfailed => Bool.false_ne_true (hf.symm.trans hfailed), fun hnot => hd ?_⟩
    exact Bool.not_eq_true _ ▸ fun hc => hnot ((h.active.contains_iff h.wf).mp hc)
  have hinv : ¬ s.Invalid b := by
    rintro ⟨a, ha, hfv⟩
    exact (hpath a ha).1 (.of_failedValid hfv)
  -- on the active chain all blocks are linked, and above it all have their data
  have hlinked : s.Linked b := by
    refine (h.linked_iff hb).mpr fun a ha => ?_
    have ham := h.wf.rooted.mem_of_anc hb ha
    by_cases hat : s.Anc a t
    · exact (h.linked_iff h.active.mem).mp h.linked a hat
    · exact h.records.data a ham ((hpath a ha).2 hat)
  have hbt : ¬ s.Anc b t := fun hanc => by
    rw [(h.active.contains_iff h.wf).mpr hanc] at hoff
    cases hoff
  have hdata : s.HasData b := (hpath b (.refl b)).2 hbt
  rcases le_total (s.workKey b) (s.workKey t) with hle | hle
  · exact BlockIndex.work_le_of_workKey_le hle
  · rcases h.mem_or_listed hb hlinked hdata hinv hle with hmem | hlisted
    · exact BlockIndex.work_le_of_workKey_le (htarget.best b hmem)
    · obtain ⟨a, ha, hat, hmissing⟩ := h.exists_missing hb hlisted
      exact absurd ((hpath a ha).2 hat) hmissing

/-- `ActivateBestChain` comes to its end, unless the disk fails, and then no usable block has more work
than the tip. -/
theorem activateBestChain_best (hplain : v.Plain) (hcheck : s.checkBlockIndex v = true)
    (hground : s.Grounded v t) : (∃ e, s.activateBestChain v = .error e ∧ e.stop = .disk) ∨
      ∃ s' t', s.activateBestChain v = .ok s' ∧ s'.tip = some t' ∧
        ∀ b, s'.Usable b → s'.nChainWork b ≤ s'.nChainWork t' := by
  have hkept := hground.kept hcheck
  rcases hkept.activateBestChain_spec hplain.intact with
    ⟨e, herr, hexcused⟩ | ⟨s', t', hok, hkept', htarget, -, -⟩
  · exact .inl ⟨e, herr, hexcused.disk hplain⟩
  · exact .inr ⟨s', t', hok, hkept'.active.tip_eq hkept'.wf, fun b hb =>
      hkept'.work_le_of_usable htarget hb⟩

theorem activateBestChain_best_oneHeader :
    ∃ s : BlockTree Nat, ∃ t, s.checkBlockIndex allValid = true ∧ s.Grounded allValid t ∧
      ((∃ e, s.activateBestChain allValid = .error e ∧ e.stop = .disk) ∨
        ∃ s' t', s.activateBestChain allValid = .ok s' ∧ s'.tip = some t' ∧
          ∀ b, s'.Usable b → s'.nChainWork b ≤ s'.nChainWork t') := by
  obtain ⟨t, hsound⟩ := reached_oneHeader.sound allValid_intact rfl
  have hcheck := hsound.kept.checkBlockIndex hsound.unlinked
  exact ⟨_, t, hcheck, hsound.kept.grounded,
    activateBestChain_best (fun _ => .inl rfl) hcheck hsound.kept.grounded⟩

/-! ## A tip that is rejected the second time -/

/-- Blocks 1 and 2 stand on genesis, and 3 on 2. -/
def forkedTree : BlockTree Nat :=
  let accepting : Validator Nat := ⟨0, fun _ => .valid⟩
  let header := fun (s : BlockTree Nat) (b p : Nat) => s.addToBlockIndex ⟨b, some p, 0x207fffff⟩
  match initBlockIndex accepting 0x207fffff 1 with
  | .error e => e.tree
  | .ok s =>
    match ((header (header (header s 1 0) 2 0) 3 2).receivedBlockTransactions 1 1 0).activateBestChain
      accepting with
    | .error e => e.tree
    | .ok s => (s.receivedBlockTransactions 2 1 0).receivedBlockTransactions 3 1 0

/-- The tip 1 would not be accepted again, and 3 is invalid. -/
def reconnectRejected : Validator Nat where
  hashGenesisBlock := 0
  connectBlock := fun b => if b = 1 ∨ b = 3 then .invalid false true else .valid

/-- Block 2 is as good as the tip 1 but came later, so it is no candidate. When the branch of 3 has
failed and 1 is rejected, the tip stays at genesis, and 2 is forgotten. -/
theorem forgets_reconnected :
    reconnectRejected.Plain ∧ forkedTree.checkBlockIndex reconnectRejected = true ∧
      ∃ s', forkedTree.activateBestChain reconnectRejected = .ok s' ∧ s'.tip = some 0 ∧
        s'.Usable 2 ∧ s'.nChainWork 0 < s'.nChainWork 2 := by
  refine ⟨fun b => ?_, by decide +kernel, ?_⟩
  · by_cases hb : b = 1 ∨ b = 3
    · exact .inr ⟨true, if_pos hb⟩
    · exact .inl (if_neg hb)
  · have hend : (match forkedTree.activateBestChain reconnectRejected with
        | .ok s' => decide (s'.tip = some 0 ∧ s'.Usable 2 ∧ s'.nChainWork 0 < s'.nChainWork 2)
        | .error _ => false) = true := by decide +kernel
    cases hrun : forkedTree.activateBestChain reconnectRejected with
    | error e =>
      rw [hrun] at hend
      cases hend
    | ok s' =>
      rw [hrun] at hend
      exact ⟨s', rfl, of_decide_eq_true hend⟩

end BlockTree

end Chratos
