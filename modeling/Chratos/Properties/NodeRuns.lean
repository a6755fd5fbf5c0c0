import Chratos.Properties.ChainSelection

/-!
# Chratos — what holds from a time on

No call takes a block out of the index, changes its work or removes its failure mark (`Sound.step`;
`ResetBlockFailureFlags` is not among them). So what has failed is never active again
(`failed_off_chain`), and the tip loses work only when the operator says so (`tip_work_le`).
-/

namespace Chratos

namespace BlockTree

open List Outcome Function

variable {ι : Type} {s s' r : BlockTree ι} {b t : ι}

/-! ## One call -/

/-- What is known of a block stays known. -/
def Persists (s s' : BlockTree ι) : Prop := ∀ x ∈ s.mapBlockIndex,
    x ∈ s'.mapBlockIndex ∧ s'.nChainWork x = s.nChainWork x ∧ (s.Failed x → s'.Failed x)

theorem Persists.of_header (hheader : s'.toHeaderTree = s.toHeaderTree)
    (hfailed : ∀ x, s.Failed x → s'.Failed x) : s.Persists s' := fun x hx => by
  rw [hheader]
  exact ⟨hx, rfl, hfailed x⟩

theorem Persists.trans (h : s.Persists r) (h' : r.Persists s') : s.Persists s' := by
  intro x hx
  obtain ⟨hx, hwork, hfailed⟩ := h x hx
  obtain ⟨hx, hwork', hfailed'⟩ := h' x hx
  exact ⟨hx, hwork'.trans hwork, hfailed' ∘ hfailed⟩

variable [LinearOrder ι] {v : Validator ι}

theorem persists_update (st : BlockStatus)
    (hr : r.toHeaderTree = s.toHeaderTree ∧ r.nStatus = update s.nStatus b st)
    (hst : s.Failed b → st.failed = true) : s.Persists r := by
  refine .of_header hr.1 fun x hx => ?_
  rw [BlockIndex.Failed, hr.2]
  by_cases hxb : x = b
  · rw [hxb, update_self]
    exact hst (hxb ▸ hx)
  · rwa [update_of_ne hxb]

theorem linkQueue_eq (n : Nat) (queue : List ι) (s : BlockTree ι) :
    (linkQueue n queue s).toHeaderTree = s.toHeaderTree ∧
      (linkQueue n queue s).nStatus = s.nStatus := by
  induction n generalizing queue s with
  | zero => exact ⟨rfl, rfl⟩
  | succ n ih =>
    cases queue with
    | nil => exact ⟨rfl, rfl⟩
    | cons x queue =>
      rw [linkQueue, (ih _ _).1, (ih _ _).2, eraseRange, linkBlock]
      dsimp only
      split_ifs <;> exact ⟨rfl, rfl⟩

theorem persists_receivedBlockTransactions (nVtx file : Nat) :
    s.Persists (s.receivedBlockTransactions b nVtx file) := by
  refine persists_update (b := b) ({ s.nStatus b with haveData := true }.raiseValidity .transactions) ?_
    fun hb => by rwa [BlockStatus.raiseValidity_failed]
  unfold receivedBlockTransactions
  dsimp only
  split
  · exact linkQueue_eq ..
  · split_ifs
    exacts [linkQueue_eq .., ⟨rfl, rfl⟩, ⟨rfl, rfl⟩]

theorem persists_invalidateLoop (n : Nat) (s : BlockTree ι) :
    Ends (s.Persists ·) (fun _ => True) (invalidateLoop b n s) := by
  induction n generalizing s with
  | zero => trivial
  | succ n ih =>
    rw [invalidateLoop]
    refine .ite (fun _ => ?_) fun _ => .of_header rfl fun _ => id
    cases s.tip with
    | none => trivial
    | some t =>
      refine Ends.bind (Q := (s.Persists ·)) ?_ fun s' hs => (ih s').mono fun _ => hs.trans
      unfold disconnectTip
      split
      · trivial
      · exact .ite (fun _ => persists_update _ ⟨rfl, rfl⟩ fun _ => Bool.or_true _) fun _ => trivial

theorem persists_invalidateBlock (hok : s.invalidateBlock b = .ok s') : s.Persists s' := by
  refine Ends.of_eq_ok (Q := (s.Persists ·)) (E := fun _ => True)
    (Ends.bind (persists_invalidateLoop _ _) fun r hr => ?_) hok
  obtain ⟨best, hbest⟩ := invalidChainFound_eq r.readdCandidates b
  have hmark : s.Persists (s.condemned b) := persists_update _ ⟨rfl, rfl⟩ fun _ => Bool.true_or _
  show s.Persists (r.readdCandidates.invalidChainFound b)
  rw [hbest]
  exact hmark.trans hr

theorem persists_addToBlockIndex (block : Header ι) : s.Persists (s.addToBlockIndex block) := by
  intro x hx
  unfold addToBlockIndex BlockIndex.Failed
  split_ifs with hknown
  · exact ⟨hx, rfl, id⟩
  · have hne := ne_of_mem_of_not_mem hx hknown
    dsimp only
    rw [update_of_ne hne, update_of_ne hne]
    exact ⟨mem_cons_of_mem _ hx, rfl, id⟩

/-- A call that returns `true` keeps the bookkeeping and what is known of the blocks, and only
`InvalidateBlock` costs the tip work. -/
theorem Sound.step (hintact : v.Intact) (h : s.Sound v t) (c : Call ι) (hadmitted : c.Admitted v s)
    (horderly : c.Orderly s) (hok : c.run v s = .ok s') : ∃ t', s'.Sound v t' ∧ s.Persists s' ∧
      ((∀ b, c ≠ .invalidateBlock b) → s.nChainWork t ≤ s'.nChainWork t') := by
  have hmem := h.kept.active.mem
  cases c with
  | addToBlockIndex block =>
    obtain ⟨p, hp, hprev, -⟩ := hadmitted
    obtain rfl := Except.ok.inj hok
    have hkeeps := persists_addToBlockIndex (s := s) block
    exact ⟨t, h.addToBlockIndex hp hprev (horderly p hprev), hkeeps, fun _ => (hkeeps t hmem).2.1.ge⟩
  | receivedBlockTransactions b nVtx file =>
    obtain rfl := Except.ok.inj hok
    have hkeeps := persists_receivedBlockTransactions (s := s) (b := b) nVtx file
    exact ⟨t, h.receivedBlockTransactions horderly, hkeeps, fun _ => (hkeeps t hmem).2.1.ge⟩
  | activateBestChain =>
    rcases h.kept.activateBestChain_spec hintact with
      ⟨e, herr, -⟩ | ⟨s'', t', hok', hkept, -, hmoved, hle⟩
    · exact absurd (hok.symm.trans herr) nofun
    · obtain rfl := Except.ok.inj (hok.symm.trans hok')
      refine ⟨t', ⟨hkept, hmoved.unlinked_of h.unlinked⟩, .of_header hmoved.header hmoved.failed,
        fun _ => ?_⟩
      rw [hmoved.header]
      exact BlockIndex.work_le_of_workKey_le hle
  | invalidateBlock b =>
    obtain ⟨t', hsound⟩ := h.call hintact _ hadmitted horderly hok
    exact ⟨t', hsound, persists_invalidateBlock hok, fun hne => absurd rfl (hne b)⟩
  | pruneOneBlockFile fileNumber =>
    obtain rfl := Except.ok.inj hok
    exact ⟨t, h.pruneOneBlockFile horderly, .of_header rfl fun x => (prune_failed x).mpr,
      fun _ => le_rfl⟩

/-! ## Runs -/

/-- The states that orderly calls of a kind lead to. -/
def Later (v : Validator ι) (k : Call ι → Prop) : BlockTree ι → BlockTree ι → Prop :=
  Relation.ReflTransGen fun s s' => ∃ c, k c ∧ c.Admitted v s ∧ c.Orderly s ∧ c.run v s = .ok s'

variable {k : Call ι → Prop}

theorem Later.sound (hintact : v.Intact) (h : s.Sound v t) (hlater : Later v k s s') :
    ∃ t', s'.Sound v t' ∧ s.Persists s' ∧
      ((∀ b, ¬ k (.invalidateBlock b)) → s.nChainWork t ≤ s'.nChainWork t') := by
  induction hlater with
  | refl => exact ⟨t, h, .of_header rfl fun _ => id, fun _ => le_rfl⟩
  | tail _ hcall ih =>
    obtain ⟨c, hk, hadmitted, horderly, hok⟩ := hcall
    obtain ⟨t', hsound, hkeeps, hle⟩ := ih
    obtain ⟨t'', hsound', hkeeps', hle'⟩ := hsound.step hintact c hadmitted horderly hok
    refine ⟨t'', hsound', hkeeps.trans hkeeps', fun hno => (hle hno).trans (hle' ?_)⟩
    rintro b rfl
    exact hno b hk

/-- **A failed block** is on the active chain at no later time, nor is a block on top of it. -/
theorem failed_off_chain (hintact : v.Intact) (hgenesis : v.connectBlock v.hashGenesisBlock = .valid)
    (h : Reached v Call.Orderly s) (hlater : Later v k s s') (hb : b ∈ s.mapBlockIndex)
    (hfailed : s.Failed b) : ∀ x, s'.Anc b x → s'.contains x = false := by
  obtain ⟨_, hstart⟩ := h.sound hintact hgenesis
  obtain ⟨t, hsound, hkeeps, -⟩ := hlater.sound hintact hstart
  intro x hx
  refine Bool.not_eq_true _ ▸ fun hc => ?_
  have hxt := (hsound.kept.active.contains_iff hsound.kept.wf).mp hc
  exact (hsound.kept.connected b (hx.trans hxt)).not_failed ((hkeeps b hb).2.2 hfailed)

/-- Block 1 is invalidated. -/
theorem failed_off_chain_oneHeader : let s := treeOf ((oneHeader.receivedBlockTransactions 1 1
      0).invalidateBlock 1)
    (treeOf (s.activateBestChain allValid)).contains 1 = false :=
  failed_off_chain (k := fun _ => True) allValid_intact rfl
    (.call (.invalidateBlock 1) reached_oneHeader (by decide +kernel) trivial
      (eq_ok_treeOf (by decide +kernel)))
    (.single ⟨.activateBestChain, trivial, trivial, trivial, eq_ok_treeOf (by decide +kernel)⟩)
    (by decide +kernel) (by decide +kernel) 1 (.refl 1)

end BlockTree

end Chratos
