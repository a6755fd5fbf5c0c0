import Chratos.Chain.Receive

/-!
# Chratos — blocks are given up: `PruneOneBlockFile` and `InvalidateBlock`

Both keep the bookkeeping. While `InvalidateBlock` takes blocks off the tip the active chain is a
failed one, so nothing is kept in the middle of it; what it has done in the end is computed first
(`invalidateLoop_spec`) and the candidates are complete again after its last loop.
-/

namespace Chratos

open Function List BlockTree

open Lineage (anc_iff_of_parent)
open Outcome (Ends)

namespace BlockTree

variable {ι : Type} [LinearOrder ι] {v : Validator ι} {s : BlockTree ι} {t : ι}

/-! ## Pruning -/

section

variable {file : Nat}

theorem prune_status (b : ι) : ((s.pruneOneBlockFile file).nStatus b).valid = (s.nStatus b).valid ∧
      ((s.pruneOneBlockFile file).nStatus b).failed = (s.nStatus b).failed ∧
      ((s.pruneOneBlockFile file).nStatus b).failedValid = (s.nStatus b).failedValid := by
  unfold pruneOneBlockFile
  dsimp only
  split_ifs <;> exact ⟨rfl, rfl, rfl⟩

theorem prune_data (b : ι) :
    (s.pruneOneBlockFile file).HasData b ↔ s.HasData b ∧ s.inFile file b = false := by
  unfold BlockIndex.HasData pruneOneBlockFile
  dsimp only
  split_ifs with hin
  · exact iff_of_false id fun hpair => by rw [hin] at hpair; exact absurd hpair.2 nofun
  · exact (and_iff_left (Bool.not_eq_true _ ▸ hin)).symm

theorem prune_invalid (b : ι) : (s.pruneOneBlockFile file).Invalid b ↔ s.Invalid b := by
  refine exists_congr fun a => and_congr_right fun _ => ?_
  rw [(prune_status a).2.2]

theorem prune_failed (b : ι) : (s.pruneOneBlockFile file).Failed b ↔ s.Failed b := by
  unfold BlockIndex.Failed
  rw [(prune_status b).2.1]

theorem prune_orphaned {b : ι} (ho : s.Orphaned b) : (s.pruneOneBlockFile file).Orphaned b := by
  obtain ⟨p, hp, hpf, htx⟩ := ho
  exact ⟨p, hp, (prune_failed p).mpr hpf, htx⟩

variable (h : s.Sound v t)

include h

/-- The entries of the blocks in the file go. -/
theorem prune_entry {e : ι × ι} (hmem : e ∈ s.mapBlocksUnlinked) :
    e ∈ (s.pruneOneBlockFile file).mapBlocksUnlinked ↔ s.inFile file e.2 = false := by
  obtain ⟨-, hprev, -⟩ := h.kept.waiting.entry e hmem
  show e ∈ s.mapBlocksUnlinked.filter _ ↔ _
  rw [mem_filter, decide_eq_true_eq, not_and, ← Bool.not_eq_true]
  exact ⟨fun hpair hin => hpair.2 hin hprev, fun hnot => ⟨hmem, fun hin => absurd hin hnot⟩⟩

/-- A listed block stays listed unless it loses its data. -/
theorem prune_listed {b : ι} (hlisted : BlockIndex.Listed s.mapBlocksUnlinked b)
    (hout : s.inFile file b = false) :
    BlockIndex.Listed (s.pruneOneBlockFile file).mapBlocksUnlinked b := by
  obtain ⟨p, hp⟩ := hlisted
  exact ⟨p, (prune_entry h hp).mpr hout⟩

/-- The data of a block file goes, if its blocks are linked. -/
theorem Sound.pruneOneBlockFile
    (hlinked : ∀ b ∈ s.mapBlockIndex, s.nFile b = file → s.HasData b → s.Linked b) :
    (s.pruneOneBlockFile file).Sound v t := by
  have hkept := h.kept
  have hrec := hkept.records
  have hmem : ∀ e ∈ (s.pruneOneBlockFile file).mapBlocksUnlinked, e ∈ s.mapBlocksUnlinked :=
    fun e he => mem_of_mem_filter he
  refine ⟨⟨hkept.wf, ⟨fun b hb => ?_, fun b hb => ?_, fun b hb p hp hne level hlevel => ?_,
    fun b hb => ?_, fun b hb hd => ?_, hrec.linked, hrec.sequence, fun b hb hf => ?_⟩, nofun, ?_,
    ⟨hkept.active.mem, hkept.active.vChain_eq⟩, fun a ha => ?_, hkept.linked, ?_, le_rfl⟩, ?_⟩
  · rw [(prune_status b).1]
    exact hrec.tree b hb
  · rw [(prune_status b).1]
    exact hrec.transactions b hb
  · rw [(prune_status b).1, (prune_status p).1]
    exact hrec.chain b hb p hp hne level hlevel
  · -- undo data goes together with the block
    rw [prune_data]
    unfold BlockTree.pruneOneBlockFile
    dsimp only
    split_ifs with hin
    · nofun
    · exact fun hundo => ⟨hrec.undo b hb hundo, Bool.not_eq_true _ ▸ hin⟩
  · exact hrec.data b hb ((prune_data b).mp hd).1
  · exact (prune_invalid b).mpr (hrec.failed b hb ((prune_failed b).mp hf))
  · refine ⟨fun e he => ?_, fun e he => hkept.waiting.off e (hmem e he), fun e he => ?_,
      hkept.waiting.links⟩
    · obtain ⟨hbm, hprev, hd⟩ := hkept.waiting.entry e (hmem e he)
      exact ⟨hbm, hprev, (prune_data _).mpr ⟨hd, (prune_entry h (hmem e he)).mp he⟩⟩
    · refine or_iff_not_imp_left.mpr fun hd => ?_
      obtain ⟨hdata, hout⟩ := (prune_data _).mp (not_not.mp hd)
      exact ((hkept.waiting.cause e (hmem e he)).resolve_left (not_not.mpr hdata)).imp
        (prune_listed h · hout) (Or.imp_right prune_orphaned)
  · have hcon := hkept.connected a ha
    exact ⟨mt (prune_failed a).mp hcon.not_failed, fun hne =>
      (prune_status a).1.trans (hcon.scripts hne),
      hcon.verdict⟩
  · refine ⟨hkept.candidates.mem, hkept.candidates.top_mem, fun a ha hoff => absurd ha hoff,
      fun b hb hl hd hinv hle => ?_⟩
    obtain ⟨hd, hout⟩ := (prune_data b).mp hd
    exact (hkept.candidates.complete b hb hl hd (mt (prune_invalid b).mpr hinv) hle).imp_right
      (Or.imp_left (prune_listed h · hout))
  · refine ⟨fun b hnot => ?_, fun b hb htx hnot => ?_⟩
    · have hsub : ((s.pruneOneBlockFile file).mapBlocksUnlinked.map Prod.snd).Sublist
          (s.mapBlocksUnlinked.map Prod.snd) := filter_sublist.map _
      exact (hsub.count_le b).trans (h.unlinked.once b hnot)
    · refine (h.unlinked.waits b hb htx hnot).imp ?_ (Or.imp_right prune_orphaned)
      rintro ⟨p, hp⟩
      refine prune_listed h ⟨p, hp⟩ (Bool.not_eq_true _ ▸ fun hin => hnot ?_)
      exact hlinked b hb (of_decide_eq_true hin).2 (h.kept.waiting.entry _ hp).2.2

end

/-! ## Taking blocks off the tip -/

/-- `s'` is `s` with the tip moved from `t` down to `t'`, below `b`, and the blocks between marked and
no candidates any more. -/
structure Unwound (s s' : BlockTree ι) (t t' b : ι) : Prop where
  rest : s' = { s with
    nStatus := s'.nStatus
    vChain := s'.vChain
    setBlockIndexCandidates := s'.setBlockIndexCandidates }
  active : s'.Active t'
  below : s.Anc t' t
  off : ¬ s.Anc b t'
  between : ∀ a, s.Anc a t → s.Anc a t' ∨ s.Anc b a
  same : ∀ x, ¬ s.Anc b x → s'.nStatus x = s.nStatus x
  status : ∀ x, s'.nStatus x = s.nStatus x ∨ s'.nStatus x = { s.nStatus x with failedChild := true }
  candidate : ∀ c ∈ s'.setBlockIndexCandidates, c ∈ s.setBlockIndexCandidates
  kept : ∀ c ∈ s.setBlockIndexCandidates, ¬ s.Anc b c → c ∈ s'.setBlockIndexCandidates

/-- The loop takes off the tip everything from `b` on. -/
theorem invalidateLoop_spec {genesis b : ι} (hb : b ≠ genesis) :
    ∀ n (s : BlockTree ι) (t : ι), s.WellFormed genesis → s.Active t → 0 < n →
      (s.Anc b t → s.nHeight t + 1 < n + s.nHeight b) →
      Ends (fun s' => ∃ t', Unwound s s' t t' b) (·.stop = .disk) (invalidateLoop b n s) := by
  intro n
  induction n with
  | zero => exact fun _ _ _ _ hpos => absurd hpos (lt_irrefl 0)
  | succ n ih =>
    intro s t hwf hactive _ hfuel
    by_cases hanc : s.Anc b t
    · have hne : t ≠ genesis := by
        rintro rfl
        exact hb ((Lineage.anc_iff_of_none hwf.rooted.root_parent).mp hanc)
      obtain ⟨p, hpm, hprev, hheight⟩ := hwf.rooted.exists_parent t hactive.mem hne
      set marked := (s.setStatus t fun st => { st with failedChild := true }).eraseCandidate t
        with hmarked
      have hactive' : marked.Active t := ⟨hactive.mem, hactive.vChain_eq⟩
      have hlower := hwf.rooted.height_le hactive.mem hanc
      have hfuel' := hfuel hanc
      have hmark : ∀ x, x ≠ t → marked.nStatus x = s.nStatus x := fun x hx => update_of_ne hx _ _
      have hmark' : marked.nStatus t = { s.nStatus t with failedChild := true } :=
        update_self _ _ _
      rw [invalidateLoop, if_pos ((hactive.contains_iff hwf).mpr hanc), hactive.tip_eq hwf]
      refine (hactive'.ends_disconnectTip hwf hprev).bind ?_
      rintro _ ⟨-, rfl⟩
      refine (ih (marked.setTip (some p)) p hwf (hactive'.setTip hwf hpm) (by omega)
        fun _ => by show s.nHeight p + 1 < n + s.nHeight b; omega).mono ?_
      rintro s' ⟨t', hu⟩
      refine ⟨t', hu.rest, hu.active, hu.below.trans (.of_parent hprev), hu.off,
        fun a ha => ?_, fun x hx => ?_, fun x => ?_, fun c hc => ?_, fun c hc hoff => ?_⟩
      · rcases (anc_iff_of_parent hprev).mp ha with rfl | hap
        · exact .inr hanc
        · exact hu.between a hap
      · exact (hu.same x hx).trans (hmark x fun heq => hx (heq ▸ hanc))
      · have hst : s'.nStatus x = marked.nStatus x ∨
            s'.nStatus x = { marked.nStatus x with failedChild := true } := hu.status x
        by_cases hxt : x = t
        · rw [hxt, hmark'] at hst
          exact hxt ▸ .inr (hst.elim id id)
        · rwa [hmark x hxt] at hst
      · exact mem_of_mem_filter (hu.candidate c hc)
      · refine hu.kept c (mem_filter.mpr ⟨hc, decide_eq_true fun heq => ?_⟩) hoff
        exact hoff (heq ▸ hanc)
    · rw [invalidateLoop, if_neg fun hc => hanc ((hactive.contains_iff hwf).mp hc)]
      exact ⟨t, rfl, hactive, .refl t, hanc, fun a ha => .inl ha, fun _ _ => rfl,
        fun _ => .inl rfl, fun _ => id, fun _ hc _ => hc⟩

/-! ## `InvalidateBlock` -/

/-- What the last loop adds. -/
theorem mem_readdCandidates (s : BlockTree ι) (c : ι) :
    c ∈ s.readdCandidates.setBlockIndexCandidates ↔ c ∈ s.setBlockIndexCandidates ∨
      c ∈ s.mapBlockIndex ∧ (s.nStatus c).isValid .transactions = true ∧ s.nChainTx c ≠ 0 ∧
        s.notWorseThanTip c = true := by
  have hfold : ∀ (bs : List ι) (candidates : List ι), c ∈ bs.foldl (fun candidates b =>
        if (s.nStatus b).isValid .transactions ∧ s.nChainTx b ≠ 0 ∧ s.notWorseThanTip b
        then candidates.insert b else candidates) candidates ↔
      c ∈ candidates ∨ c ∈ bs ∧ (s.nStatus c).isValid .transactions = true ∧ s.nChainTx c ≠ 0 ∧
        s.notWorseThanTip c = true := by
    intro bs
    induction bs with
    | nil => simp
    | cons b bs ih =>
      intro candidates
      rw [foldl_cons, ih, mem_cons]
      split_ifs with hgood
      · rw [mem_insert_iff]
        constructor
        · rintro ((rfl | hc) | ⟨hc, hrest⟩)
          · exact .inr ⟨.inl rfl, hgood⟩
          · exact .inl hc
          · exact .inr ⟨.inr hc, hrest⟩
        · rintro (hc | ⟨rfl | hc, hrest⟩)
          · exact .inl (.inr hc)
          · exact .inl (.inl rfl)
          · exact .inr ⟨hc, hrest⟩
      · constructor
        · rintro (hc | ⟨hc, hrest⟩)
          · exact .inl hc
          · exact .inr ⟨.inr hc, hrest⟩
        · rintro (hc | ⟨rfl | hc, hrest⟩)
          · exact .inl hc
          · exact absurd hrest hgood
          · exact .inr ⟨hc, hrest⟩
  exact hfold s.mapBlockIndex s.setBlockIndexCandidates

/-- The block is marked and is no candidate any more. -/
def condemned (s : BlockTree ι) (b : ι) : BlockTree ι :=
  (s.setStatus b fun st => { st with failedValid := true }).eraseCandidate b

/-- What becomes of a status word. -/
theorem Unwound.cases {s' : BlockTree ι} {t' b : ι} (hu : Unwound (s.condemned b) s' t t' b) (x : ι) :
    (s'.nStatus x).valid = (s.nStatus x).valid ∧ (s'.nStatus x).haveData = (s.nStatus x).haveData ∧
      (s'.nStatus x).haveUndo = (s.nStatus x).haveUndo ∧
      ((s.nStatus x).failed = true → (s'.nStatus x).failed = true) ∧
      ((s.nStatus x).failedValid = true → (s'.nStatus x).failedValid = true) ∧
      (x = b → (s'.nStatus x).failedValid = true) := by
  have hfirst : (s.condemned b).nStatus x =
      if x = b then { s.nStatus x with failedValid := true } else s.nStatus x := by
    show update s.nStatus b _ x = _
    split_ifs with hxb
    · rw [hxb, update_self]
    · rw [update_of_ne hxb]
  rcases hu.status x with heq | heq
  all_goals
    rw [heq, hfirst]
    split_ifs with hxb
  · exact ⟨rfl, rfl, rfl, fun _ => Bool.true_or _, fun _ => rfl, fun _ => rfl⟩
  · exact ⟨rfl, rfl, rfl, id, id, fun h => absurd h hxb⟩
  · exact ⟨rfl, rfl, rfl, fun _ => Bool.or_true _, fun _ => rfl, fun _ => rfl⟩
  · exact ⟨rfl, rfl, rfl, fun _ => Bool.or_true _, id, fun h => absurd h hxb⟩

section

variable {s' : BlockTree ι} {t' b : ι} (h : s.Sound v t) (hu : Unwound (s.condemned b) s' t t' b)

include h hu

omit h in
theorem Unwound.restatus : s.Restatus s'.nStatus :=
  ⟨fun x _ => (hu.cases x).1.ge, fun x _ => (hu.cases x).2.1, fun x _ => (hu.cases x).2.2.2.1,
    fun x _ => (hu.cases x).2.2.2.2.1⟩

omit h in
/-- Blocks that do not descend from `b` keep their status words. -/
theorem Unwound.same_of_not_anc {x : ι} (hx : ¬ s.Anc b x) : s'.nStatus x = s.nStatus x := by
  refine (hu.same x hx).trans (update_of_ne (fun heq => hx ?_) _ _)
  exact heq ▸ .refl x

theorem Unwound.records : { s.toBlockIndex with nStatus := s'.nStatus }.Records v.hashGenesisBlock := by
  refine h.kept.records.restatus h.kept.wf hu.restatus (fun x _ hle => (hu.cases x).1 ▸ hle)
    (fun x _ => .inl (hu.cases x).1.le) (fun x hx hundo => ?_) fun x hx hf => ?_
  · rw [(hu.cases x).2.2.1] at hundo
    exact h.kept.records.undo x hx hundo
  · by_cases hanc : s.Anc b x
    · exact .inr ⟨b, hanc, (hu.cases b).2.2.2.2.2 rfl⟩
    · rw [hu.same_of_not_anc hanc] at hf
      exact .inl hf

/-- After the last loop the bookkeeping is as before, with the lower tip. -/
theorem Unwound.sound : s'.readdCandidates.Sound v t' := by
  have hkept := h.kept
  have hroot := hkept.wf.rooted
  have hrest := hu.restatus
  have hrecords := hu.records h
  have ht' : s.Anc t' t := hu.below
  have htm' : t' ∈ s.mapBlockIndex := hroot.mem_of_anc hkept.active.mem ht'
  have hlinked' : s.Linked t' := hkept.records.linked_of_anc hkept.wf hkept.active.mem hkept.linked ht'
  have hsame : ∀ a, s.Anc a t' → s'.nStatus a = s.nStatus a := fun a ha =>
    hu.same_of_not_anc fun hba => hu.off (hba.trans ha)
  have hactive' := hu.active
  have hmem := mem_readdCandidates s'
  have hold := hu.candidate
  obtain ⟨σ, chain, candidates, heq⟩ : ∃ σ chain candidates, s' = { s.condemned b with
        nStatus := σ
        vChain := chain
        setBlockIndexCandidates := candidates } := ⟨_, _, _, hu.rest⟩
  subst heq
  have hkey : ∀ c, notWorseThanTip { s.condemned b with
      vChain := chain
      setBlockIndexCandidates := candidates } c = true ↔ s.workKey t' ≤ s.workKey c := fun c =>
    hactive'.notWorseThanTip_iff (b := c) hkept.wf
  -- a block that has not failed and is not worse than the new tip is taken up again
  have hreadd : ∀ c ∈ s.mapBlockIndex, s.Linked c → (σ c).failed = false → s.workKey t' ≤ s.workKey c →
      c ∈ (readdCandidates { s.condemned b with
        nStatus := σ
        vChain := chain
        setBlockIndexCandidates := candidates }).setBlockIndexCandidates := by
    intro c hc hl hf hle
    refine (hmem c).mpr (.inr ⟨hc, ?_, hl, (hkey c).mpr hle⟩)
    unfold BlockStatus.isValid
    rw [hf, Bool.not_false, Bool.true_and, decide_eq_true_eq]
    exact (hrecords.transactions c hc).mpr (hkept.records.linked c hc hl).1
  have hle' : s.workKey t' ≤ s.workKey t := BlockIndex.workKey_le hkept.wf hkept.active.mem ht'
  refine ⟨⟨hkept.wf, hrecords, fun hp x hx htx =>
    (hrest.data x hx).trans (hkept.unpruned hp x hx htx), ?_,
    ⟨hactive'.mem, hactive'.vChain_eq⟩, fun a ha => ?_, hlinked', ?_, le_rfl⟩, ?_⟩
  · have hwait := hkept.waiting.restatus hkept.wf hrest
    exact { hwait with off := fun e he hanc => hkept.waiting.off e he (hanc.trans ht') }
  · have hcon := hkept.connected a (ha.trans ht')
    have hst : σ a = s.nStatus a := hsame a ha
    refine ⟨?_, fun hne => ?_, hcon.verdict⟩
    · show ¬ (σ a).failed = true
      rw [hst]
      exact hcon.not_failed
    · show (σ a).valid = .scripts
      rw [hst]
      exact hcon.scripts hne
  · refine ⟨fun c hc => ?_, ?_, fun a ha hoff => absurd ha hoff, fun c hc hl hd hinv hle => .inl ?_⟩
    · rcases (hmem c).mp hc with hin | ⟨hcm, -, hl, hworse⟩
      · obtain ⟨hcm, hl, hle⟩ := hkept.candidates.mem c (mem_of_mem_filter (hold c hin))
        exact ⟨hcm, hl, hle'.trans hle⟩
      · exact ⟨hcm, hl, (hkey c).mp hworse⟩
    · refine hreadd t' htm' hlinked' ?_ le_rfl
      have hst : σ t' = s.nStatus t' := hsame t' (.refl t')
      rw [hst]
      exact Bool.not_eq_true _ ▸ (hkept.connected t' ht').not_failed
    · refine hreadd c hc hl (Bool.not_eq_true _ ▸ fun hf => hinv ?_) hle
      exact hrecords.failed c hc hf
  · refine ⟨h.unlinked.once, fun x hx htx hnot => ?_⟩
    exact (h.unlinked.waits x hx htx hnot).imp_right (Or.imp_right (.restatus hkept.wf hrest hx))

omit hu

/-- `InvalidateBlock` comes to its end unless the disk fails. -/
theorem Sound.invalidateBlock (hb : b ∈ s.mapBlockIndex) (hne : b ≠ v.hashGenesisBlock) :
    (∃ e, s.invalidateBlock b = .error e ∧ e.stop = .disk) ∨
      ∃ s' t', s.invalidateBlock b = .ok s' ∧ s'.Sound v t' := by
  have hlen := h.kept.active.length_vChain h.kept.wf
  have hactive : (s.condemned b).Active t := ⟨h.kept.active.mem, h.kept.active.vChain_eq⟩
  have hunfold : s.invalidateBlock b = invalidateLoop b ((s.condemned b).vChain.length + 1)
      (s.condemned b) >>= fun s' => pure (s'.readdCandidates.invalidChainFound b) := rfl
  have hfuel : (s.condemned b).Anc b t → (s.condemned b).nHeight t + 1 <
      (s.condemned b).vChain.length + 1 + (s.condemned b).nHeight b := by
    intro _
    obtain ⟨p, -, -, hheight⟩ := h.kept.wf.rooted.exists_parent b hb hne
    show s.nHeight t + 1 < s.vChain.length + 1 + s.nHeight b
    omega
  rw [hunfold]
  rcases (invalidateLoop_spec hne _ (s.condemned b) t h.kept.wf hactive (Nat.succ_pos _)
    hfuel).or_of_ends with ⟨e, herr, hdisk⟩ | ⟨s', hok, t', hu⟩
  · rw [herr]
    exact .inl ⟨e, rfl, hdisk⟩
  · rw [hok]
    have hsound := hu.sound h
    refine .inr ⟨s'.readdCandidates.invalidChainFound b, t', rfl, hsound.kept.invalidChainFound b, ?_⟩
    obtain ⟨best, hbest⟩ := invalidChainFound_eq s'.readdCandidates b
    rw [hbest]
    exact hsound.unlinked

end

end BlockTree

end Chratos
