import Chratos.Chain.Bookkeeping

/-!
# Chratos — `ActivateBestChain` comes to its end

When no block's data is corrupted, `ActivateBestChain` returns, and nothing but the disk and a block
that `ConnectBlock` gives up without a word can keep it from returning `true`. It leaves the
bookkeeping as it found it, with the best candidate as the tip (`activateBestChain_spec`).
-/

namespace Chratos

open List Function BlockIndex
open Lineage (anc_iff_of_parent)
open Outcome (Ends)

/-- `ConnectBlock` accepts a block, or says that it is invalid and not corrupted. -/
def Validator.Plain {ι : Type} (v : Validator ι) : Prop :=
  ∀ b, v.connectBlock b = .valid ∨ ∃ fStake, v.connectBlock b = .invalid false fStake

/-- No block is found to be corrupted. -/
def Validator.Intact {ι : Type} (v : Validator ι) : Prop :=
  ∀ b fStake, v.connectBlock b ≠ .invalid true fStake

theorem Validator.Plain.intact {ι : Type} {v : Validator ι} (h : v.Plain) : v.Intact := by
  intro b fStake hcorrupted
  rcases h b with hvalid | ⟨_, hinvalid⟩
  · exact absurd (hvalid.symm.trans hcorrupted) nofun
  · exact absurd (hinvalid.symm.trans hcorrupted) nofun

/-- The disk has failed, or the next block on the tip is one that `ConnectBlock` gives up without an
invalid state. -/
def Halted.Excused {ι : Type} (v : Validator ι) (e : Halted ι) : Prop :=
  e.stop = .disk ∨
    e.stop = .rejected ∧ ∃ b fStake, e.tree.pprev b = e.tree.tip ∧ v.connectBlock b = .error fStake

theorem Halted.Excused.disk {ι : Type} {v : Validator ι} {e : Halted ι} (h : e.Excused v)
    (hplain : v.Plain) : e.stop = .disk := by
  refine h.resolve_right ?_
  rintro ⟨-, b, fStake, -, herror⟩
  rcases hplain b with hvalid | ⟨_, hinvalid⟩
  · exact absurd (hvalid.symm.trans herror) nofun
  · exact absurd (hinvalid.symm.trans herror) nofun

namespace BlockTree

variable {ι : Type}

/-! ## What activation leaves alone -/

/-- Headers, counts and sequence ids are as before; marks stay, and blocks are listed again only if
they have been linked. -/
structure Moved (s s' : BlockTree ι) : Prop where
  header : s'.toHeaderTree = s.toHeaderTree
  sequence : s'.nSequenceId = s.nSequenceId
  nTx : s'.nTx = s.nTx
  nChainTx : s'.nChainTx = s.nChainTx
  failed : ∀ b, s.Failed b → s'.Failed b
  unlinked : ∃ extra, s'.mapBlocksUnlinked = s.mapBlocksUnlinked ++ extra ∧ ∀ e ∈ extra, s.Linked e.2

/-- The number of blocks not marked as `BLOCK_FAILED_VALID`. -/
def unfailed (s : BlockTree ι) : Nat :=
  (s.mapBlockIndex.filter fun b => !(s.nStatus b).failedValid).length

namespace Moved

variable {s s' s'' : BlockTree ι}

/-- A call that leaves `mapBlocksUnlinked` alone. -/
theorem of_unlinked (hheader : s'.toHeaderTree = s.toHeaderTree)
    (hsequence : s'.nSequenceId = s.nSequenceId) (hnTx : s'.nTx = s.nTx)
    (hnChainTx : s'.nChainTx = s.nChainTx) (hfailed : ∀ b, s.Failed b → s'.Failed b)
    (hunlinked : s'.mapBlocksUnlinked = s.mapBlocksUnlinked) : s.Moved s' :=
  ⟨hheader, hsequence, hnTx, hnChainTx, hfailed, [], by rw [hunlinked, append_nil], nofun⟩

theorem refl (s : BlockTree ι) : s.Moved s :=
  of_unlinked rfl rfl rfl rfl (fun _ => id) rfl

theorem trans (h : s.Moved s') (h' : s'.Moved s'') : s.Moved s'' where
  header := h'.header.trans h.header
  sequence := h'.sequence.trans h.sequence
  nTx := h'.nTx.trans h.nTx
  nChainTx := h'.nChainTx.trans h.nChainTx
  failed := fun b hb => h'.failed b (h.failed b hb)
  unlinked := by
    obtain ⟨extra, heq, hextra⟩ := h.unlinked
    obtain ⟨extra', heq', hextra'⟩ := h'.unlinked
    refine ⟨extra ++ extra', by rw [heq', heq, append_assoc], fun e he => ?_⟩
    rcases mem_append.mp he with hin | hin
    · exact hextra e hin
    · have hlinked := hextra' e hin
      unfold BlockIndex.Linked at hlinked
      rw [h.nChainTx] at hlinked
      exact hlinked

theorem anc (h : s.Moved s') {a b : ι} : s'.Anc a b ↔ s.Anc a b := by
  rw [h.header]

theorem nHeight (h : s.Moved s') : s'.nHeight = s.nHeight := by
  rw [h.header]

theorem nChainWork (h : s.Moved s') : s'.nChainWork = s.nChainWork := by
  rw [h.header]

theorem mapBlockIndex (h : s.Moved s') : s'.mapBlockIndex = s.mapBlockIndex := by
  rw [h.header]

theorem workKey [LinearOrder ι] (h : s.Moved s') : s'.workKey = s.workKey := by
  unfold BlockIndex.workKey
  rw [h.nChainWork, h.sequence]

end Moved

variable [LinearOrder ι] {v : Validator ι} {s : BlockTree ι} {t top : ι}

omit [LinearOrder ι] in
theorem invalidChainFound_moved (s : BlockTree ι) (b : ι) : s.Moved (s.invalidChainFound b) := by
  obtain ⟨best, heq⟩ := invalidChainFound_eq s b
  rw [heq]
  exact .of_unlinked rfl rfl rfl rfl (fun _ => id) rfl

variable {f : BlockStatus → BlockStatus} {s' : BlockTree ι} {b : ι}

theorem setStatus_moved (s : BlockTree ι) (b : ι)
    (hf : (s.nStatus b).failed = true → (f (s.nStatus b)).failed = true) :
    s.Moved (s.setStatus b f) := by
  refine .of_unlinked rfl rfl rfl rfl (fun c hc => ?_) rfl
  show (update s.nStatus b (f (s.nStatus b)) c).failed = true
  by_cases hcb : c = b
  · subst hcb
    rw [update_self]
    exact hf hc
  · rw [update_of_ne hcb]
    exact hc

omit [LinearOrder ι] in
/-- The tip and the candidates are not part of it. -/
theorem Moved.congr {s s'' : BlockTree ι} (h : s.Moved s') (heq : s'' = { s' with
      vChain := s''.vChain
      setBlockIndexCandidates := s''.setBlockIndexCandidates }) : s.Moved s'' := by
  rw [heq]
  exact ⟨h.header, h.sequence, h.nTx, h.nChainTx, h.failed, h.unlinked⟩

theorem discard_candidates (s : BlockTree ι) (new test : ι) :
    (s.discard new test).setBlockIndexCandidates =
      s.setBlockIndexCandidates.filter (· ∉ test :: s.above new test) := by
  unfold discard markAbove
  obtain ⟨best, heq⟩ := invalidChainFound_eq s new
  rw [heq]
  split_ifs <;> rfl

theorem Kept.discard_moved (h : s.Kept v t top []) {new test : ι} (hnew : new ∈ s.mapBlockIndex)
    (hlinked : s.Linked new) : s.Moved (s.discard new test) := by
  unfold BlockTree.discard BlockTree.markAbove
  obtain ⟨best, heq⟩ := invalidChainFound_eq s new
  rw [heq]
  split_ifs
  · refine .of_unlinked rfl rfl rfl rfl (fun b hb => ?_) rfl
    show (if b ∈ s.above new test then { s.nStatus b with failedChild := true }
      else s.nStatus b).failed = true
    split_ifs
    · exact Bool.or_true _
    · exact hb
  · refine ⟨rfl, rfl, rfl, rfl, fun _ => id, _, rfl, fun e he => ?_⟩
    obtain ⟨b, hb, hpair⟩ := mem_filterMap.mp he
    obtain ⟨p, -, rfl⟩ := Option.map_eq_some_iff.mp hpair
    exact h.records.linked_of_anc h.wf hnew hlinked
      ((h.wf.rooted.mem_lineage hnew).mp (takeWhile_subset _ hb))

theorem discard_unfailed (s : BlockTree ι) (new test : ι) :
    (s.discard new test).unfailed = s.unfailed := by
  unfold discard markAbove unfailed
  obtain ⟨best, heq⟩ := invalidChainFound_eq s new
  rw [heq]
  split_ifs
  · refine congrArg (fun p => (List.filter p s.mapBlockIndex).length) (funext fun b => ?_)
    dsimp only
    split_ifs <;> rfl
  · rfl

theorem setStatus_unfailed (hf : (f (s.nStatus b)).failedValid = (s.nStatus b).failedValid) :
    (s.setStatus b f).unfailed = s.unfailed := by
  unfold unfailed setStatus
  refine congrArg (fun p => (List.filter p s.mapBlockIndex).length) (funext fun c => ?_)
  dsimp only
  by_cases hcb : c = b
  · rw [hcb, update_self, hf]
  · rw [update_of_ne hcb]

theorem rejected_moved (s : BlockTree ι) (b : ι) (fStake : Bool) : s.Moved (s.rejected b fStake) := by
  rw [rejected_eq]
  refine .trans ?_ (invalidChainFound_moved _ b)
  have hmarked :
    s.Moved (s.setStatus b fun st => { rejectedStatus fStake st with failedValid := true }) :=
    setStatus_moved s b fun _ => Bool.true_or _
  exact hmarked.congr rfl

/-- Marking a block that has not failed lowers the count. -/
theorem rejected_unfailed (fStake : Bool) (hb : b ∈ s.mapBlockIndex)
    (hnot : (s.nStatus b).failedValid = false) : (s.rejected b fStake).unfailed < s.unfailed := by
  rw [rejected_eq]
  obtain ⟨best, heq⟩ := invalidChainFound_eq
    ((s.setStatus b fun st => { rejectedStatus fStake st with failedValid := true }).eraseCandidate b) b
  rw [heq]
  set σ := update s.nStatus b
    { rejectedStatus fStake (s.nStatus b) with failedValid := true } with hσ
  show (s.mapBlockIndex.filter fun c => !(σ c).failedValid).length <
    (s.mapBlockIndex.filter fun c => !(s.nStatus c).failedValid).length
  have hsub : (s.mapBlockIndex.filter fun c => !(σ c).failedValid) =
      (s.mapBlockIndex.filter fun c => !(s.nStatus c).failedValid).filter
        fun c => !(σ c).failedValid := by
    rw [filter_filter]
    refine filter_congr fun c _ => ?_
    by_cases hcb : c = b
    · rw [hσ, hcb, update_self]
      rfl
    · rw [hσ, update_of_ne hcb, Bool.and_self]
  rw [hsub]
  refine length_filter_lt_length_iff_exists.mpr ⟨b, mem_filter.mpr ⟨hb, by rw [hnot]; rfl⟩, ?_⟩
  rw [hσ, update_self]
  exact Bool.false_ne_true

/-! ## The target -/

/-- A best candidate, the way to which is usable. -/
structure Target (s : BlockTree ι) (t m : ι) : Prop where
  mem : m ∈ s.setBlockIndexCandidates
  best : ∀ c ∈ s.setBlockIndexCandidates, s.workKey c ≤ s.workKey m
  usable : ∀ a, s.Anc a m → ¬ s.Anc a t → s.HasData a ∧ ¬ s.Failed a

namespace Kept

theorem mem_offChain (h : s.Kept v t top []) {a b : ι} (hb : b ∈ s.mapBlockIndex) :
    a ∈ s.offChain b ↔ s.Anc a b ∧ ¬ s.Anc a t := by
  constructor
  · intro ha
    refine ⟨(h.wf.rooted.mem_lineage hb).mp (takeWhile_subset _ ha), fun hanc => ?_⟩
    have hout := mem_takeWhile_imp ha
    rw [(h.active.contains_iff h.wf).mpr hanc] at hout
    cases hout
  · rintro ⟨hab, hat⟩
    have hsplit := takeWhile_append_dropWhile (p := fun a => !s.contains a) (l := s.lineage b)
    have hmem : a ∈ s.lineage b := (h.wf.rooted.mem_lineage hb).mpr hab
    rw [← hsplit] at hmem
    rcases mem_append.mp hmem with hin | hout
    · exact hin
    · -- what follows the first active block is active
      exfalso
      cases hdrop : (s.lineage b).dropWhile fun a => !s.contains a with
      | nil => rw [hdrop] at hout; cases hout
      | cons x rest =>
        have hx : s.contains x = true := by
          have := head?_dropWhile_not (fun a => !s.contains a) (s.lineage b)
          rw [hdrop] at this
          simpa using this
        rw [hdrop] at hsplit hout
        have hxm : x ∈ s.lineage b := hsplit ▸ mem_append_right _ mem_cons_self
        have hxb : s.Anc x b := (h.wf.rooted.mem_lineage hb).mp hxm
        rw [← h.wf.rooted.lineage_eq_of_append hb _ hsplit.symm,
          h.wf.rooted.mem_lineage (h.wf.rooted.mem_of_anc hb hxb)] at hout
        exact hat (hout.trans ((h.active.contains_iff h.wf).mp hx))

/-- `FindMostWorkChain` returns a target: it gives up candidates one after another, but never `top`. -/
theorem findMostWorkChain_spec :
    ∀ n (s : BlockTree ι), s.Kept v t top [] → s.setBlockIndexCandidates.length < n →
      ∃ s' m, findMostWorkChain n s = .ok (s', some m) ∧ s'.Kept v t top [] ∧ s'.Target t m ∧
        s.Moved s' ∧ s'.unfailed = s.unfailed := by
  intro n
  induction n with
  | zero => exact fun s _ hlt => absurd hlt (Nat.not_lt_zero _)
  | succ n ih =>
    intro s h hlt
    -- `top` is there, so there is a best candidate
    obtain ⟨new, hbest⟩ : ∃ new, s.bestCandidate = some new := by
      refine Option.ne_none_iff_exists'.mp fun hnone => ?_
      exact ne_nil_of_mem h.candidates.top_mem (argmax_eq_none.mp hnone)
    have hnewc : new ∈ s.setBlockIndexCandidates := argmax_mem hbest
    obtain ⟨hnew, hlinked, -⟩ := h.candidates.mem new hnewc
    have hanc : ∀ a, s.Anc a new → s.nChainTx a ≠ 0 ∨ s.nHeight a = 0 := fun a ha =>
      .inl (h.records.linked_of_anc h.wf hnew hlinked ha)
    unfold findMostWorkChain
    rw [hbest]
    dsimp only
    cases hfind : (s.offChain new).find? s.unusable with
    | none =>
      rw [if_pos fun b hb => hanc b ((h.mem_offChain hnew).mp hb).1]
      refine ⟨s, new, rfl, h, ⟨hnewc, fun c hc => le_of_mem_argmax hc hbest, ?_⟩, .refl s, rfl⟩
      intro a han hat
      have husable := find?_eq_none.mp hfind a ((h.mem_offChain hnew).mpr ⟨han, hat⟩)
      rw [unusable_iff, not_or, not_not] at husable
      exact husable.symm
    | some test =>
      have hb := h.between hnew hfind
      dsimp only
      rw [if_pos fun b hmem => ?_]
      · have hshort : (s.discard new test).setBlockIndexCandidates.length < n := by
          have hlt' : (s.discard new test).setBlockIndexCandidates.length <
              s.setBlockIndexCandidates.length := by
            rw [discard_candidates]
            refine length_filter_lt_length_iff_exists.mpr ⟨new, hnewc, ?_⟩
            rw [decide_eq_true_eq, not_not]
            by_cases hnt : new = test
            · exact hnt ▸ mem_cons_self
            · exact mem_cons_of_mem _ ((hb.mem_above new).mpr ⟨.refl new, hb.anc, hnt⟩)
          omega
        obtain ⟨s', m, hrun, hkept, htarget, hmoved, hcount⟩ :=
          ih (s.discard new test) (h.discard hnew hb) hshort
        exact ⟨s', m, hrun, hkept, htarget, (h.discard_moved hnew hlinked).trans hmoved,
          hcount.trans (discard_unfailed s new test)⟩
      · rcases mem_cons.mp hmem with rfl | habove
        · exact hanc b hb.anc
        · exact hanc b ((hb.mem_above b).mp habove).1

/-! ## Down to the fork -/

/-- The last block common to the target and the tip. -/
structure IsFork (s : BlockTree ι) (t m f : ι) : Prop where
  anc_target : s.Anc f m
  anc_tip : s.Anc f t
  last : ∀ a, s.Anc a m → s.Anc a t → s.Anc a f

variable {m last : ι}

/-- Nothing but a missing block or undo file keeps the tip from getting down to the fork. -/
theorem disconnectTo_spec {f : ι} :
    ∀ n (s : BlockTree ι) (t : ι), s.Kept v t top [] → s.Target t m → IsFork s t m f →
      s.nHeight t < s.nHeight f + n →
      Ends (fun s' => s'.Kept v f top [] ∧ s'.Target f m ∧ s.Moved s' ∧ s'.unfailed = s.unfailed)
        (·.stop = .disk) (disconnectTo (some f) n s) := by
  intro n
  induction n with
  | zero =>
    intro s t h _ hfork hheight
    have := h.wf.rooted.height_le h.active.mem hfork.anc_tip
    omega
  | succ n ih =>
    intro s t h htarget hfork hheight
    unfold disconnectTo
    rw [h.active.tip_eq h.wf]
    by_cases htf : t = f
    · subst htf
      rw [if_pos (.inr rfl)]
      exact ⟨h, htarget, .refl s, rfl⟩
    · rw [if_neg (not_or.mpr ⟨nofun, fun hsome => htf (Option.some.inj hsome)⟩)]
      have hne : t ≠ v.hashGenesisBlock := by
        rintro rfl
        exact htf ((Lineage.anc_iff_of_none h.wf.rooted.root_parent).mp hfork.anc_tip).symm
      refine (h.disconnectTip hne).bind ?_
      rintro _ ⟨p, hprev, rfl, hkept⟩
      have hfp : s.Anc f p := ((anc_iff_of_parent hprev).mp hfork.anc_tip).resolve_left (Ne.symm htf)
      have hup : ∀ a, s.Anc a p → s.Anc a t := fun a ha => ha.trans (.of_parent hprev)
      -- no block of the target's branch is taken off
      have htarget' : (s.setTip (some p)).Target p m := ⟨htarget.mem, htarget.best, fun a ham hap =>
        htarget.usable a ham fun hat => hap ((hfork.last a ham hat).trans hfp)⟩
      have hlower : s.nHeight p < s.nHeight f + n := by
        have := h.wf.rooted.height_parent h.active.mem hprev
        omega
      refine (ih (s.setTip (some p)) p hkept htarget'
        ⟨hfork.anc_target, hfp, fun a ham hap => hfork.last a ham (hup a hap)⟩ hlower).mono ?_
      rintro s' ⟨hkept', htarget'', hmoved, hcount⟩
      exact ⟨hkept', htarget'', ((Moved.refl s).congr rfl).trans hmoved, hcount⟩

/-! ## Up to the target

On the way there the tip gets to the target or above the old tip, or a block is marked as failed
(`connectBlocks_spec`, `connectLoop_spec`).
-/

section

variable {s : BlockTree ι} {m b : ι} (h : s.Kept v t top []) (htarget : s.Target t m)
  (hprev : s.pprev b = some t) (hbm : s.Anc b m)
include h htarget hprev hbm

theorem Target.next : Next s t b := by
  obtain ⟨hm, hlinked, -⟩ := h.candidates.mem m htarget.mem
  have hb := h.wf.rooted.mem_of_anc hm hbm
  have hoff : ¬ s.Anc b t := by
    intro hbt
    have h1 := h.wf.rooted.height_le h.active.mem hbt
    have h2 := h.wf.rooted.height_parent hb hprev
    omega
  obtain ⟨hdata, hfailed⟩ := htarget.usable b hbm hoff
  exact ⟨hb, hprev, h.records.linked_of_anc h.wf hm hlinked hbm, hdata, hfailed⟩

theorem Target.advanced : (s.advanced v b).Target b m := by
  obtain ⟨hm, -, -⟩ := h.candidates.mem m htarget.mem
  refine ⟨mem_filter.mpr ⟨htarget.mem, ?_⟩,
    fun c hc => htarget.best c (mem_of_mem_filter hc), fun a ham hab => ?_⟩
  · rw [Bool.not_eq_true', worse_eq_false_iff]
    exact workKey_le h.wf hm hbm
  · -- the other blocks keep their status words
    have hne : a ≠ b := fun heq => hab (heq ▸ .refl a)
    obtain ⟨hdata, hfailed⟩ := htarget.usable a ham fun hat =>
      hab (hat.trans (.of_parent hprev))
    constructor
    · show (update s.nStatus b _ a).haveData = true
      rw [update_of_ne hne]
      exact hdata
    · show ¬ (update s.nStatus b _ a).failed = true
      rw [update_of_ne hne]
      exact hfailed

end

theorem advanced_moved (v : Validator ι) (s : BlockTree ι) (b : ι) : s.Moved (s.advanced v b) :=
  (setStatus_moved s b fun hf => connectedStatus_failed.trans hf).congr rfl

/-- How a round of connecting may end, with the tip at `t'`. -/
structure RoundSpec (v : Validator ι) (s s' : BlockTree ι) (top m last : ι) (roundEnd : RoundEnd)
    (t' : ι) : Prop where
  moved : s.Moved s'
  count : s'.unfailed ≤ s.unfailed
  kept : ∃ top', s.workKey top ≤ s.workKey top' ∧ s'.Kept v t' top' []
  more : roundEnd = .more → t' = last
  target : roundEnd ≠ .invalid → s'.Target t' m ∧ s.Anc t' m
  invalid : roundEnd = .invalid → s'.unfailed < s.unfailed

theorem connectBlocks_spec (hintact : v.Intact) (old : Option ι) (back : ι) {bs : List ι} :
    ∀ (s : BlockTree ι) (t top : ι), s.Kept v t top [] → s.Target t m →
      Lineage.Path s.pprev t bs last → s.Anc last m →
      Ends (fun r => ∃ t', RoundSpec v s r.1 top m last r.2 t' ∧
          (r.2 = .better → s.nHeight t < s.nHeight t')) (Halted.Excused v)
        (connectBlocks v old back bs s) := by
  induction bs with
  | nil =>
    intro s t top h htarget hpath hlast
    cases hpath
    exact ⟨last, ⟨.refl s, le_rfl, ⟨top, le_rfl, h⟩, fun _ => rfl, fun _ => ⟨htarget, hlast⟩, nofun⟩,
      nofun⟩
  | cons b bs ih =>
    intro s t top h htarget hpath hlast
    cases hpath with
    | cons hprev hpath =>
    have hbm : s.Anc b m := hpath.anc.trans hlast
    have hnext := Target.next h htarget hprev hbm
    have hheight := h.wf.rooted.height_parent hnext.mem hprev
    have hnf : (s.nStatus b).failed = false := Bool.not_eq_true _ ▸ hnext.not_failed
    unfold connectBlocks
    cases hverdict : v.connectBlock b with
    | valid =>
      obtain ⟨hconnect, hprune⟩ := h.connectTip_valid hnext hverdict
      obtain ⟨top', htop, hkept⟩ := h.advanced hnext hverdict
      have htarget' := Target.advanced h htarget hprev hbm
      have hcount : (s.advanced v b).unfailed = s.unfailed :=
        setStatus_unfailed (connectedStatus_spec (h.wf.rooted.ne_root hprev) hnf).2.2
      rw [hconnect]
      show Ends _ _ ((s.accepted v b).pruneBlockIndexCandidates >>= _)
      rw [hprune]
      refine .ite (fun _ => ?_) fun _ => (ih (s.advanced v b) b top' hkept htarget' hpath hlast).mono ?_
      · exact ⟨b, ⟨advanced_moved v s b, hcount.le, ⟨top', htop, hkept⟩, nofun,
          fun _ => ⟨htarget', hbm⟩, nofun⟩, fun _ => by omega⟩
      · rintro r ⟨t', hspec, hprogress⟩
        obtain ⟨top'', htop'', hkept''⟩ := hspec.kept
        refine ⟨t', ⟨(advanced_moved v s b).trans hspec.moved, hspec.count.trans hcount.le,
            ⟨top'', htop.trans htop'', hkept''⟩, hspec.more, hspec.target,
            fun hinv => (hspec.invalid hinv).trans_eq hcount⟩, fun hb => ?_⟩
        have : s.nHeight b < s.nHeight t' := hprogress hb
        omega
    | invalid fCorruption fStake =>
      cases fCorruption with
      | true => exact absurd hverdict (hintact b fStake)
      | false =>
        -- the block is marked, and the round is over
        obtain ⟨hconnect, hkept⟩ := h.rejected hnext hverdict
        have hfv : (s.nStatus b).failedValid = false := (Bool.or_eq_false_iff.mp hnf).1
        have hlower := rejected_unfailed fStake hnext.mem hfv
        obtain ⟨best, hbest⟩ := invalidChainFound_eq (s.rejected b fStake) back
        have hcount : ((s.rejected b fStake).invalidChainFound back).unfailed =
            (s.rejected b fStake).unfailed := by
          rw [hbest]
          rfl
        rw [hconnect]
        exact ⟨t, ⟨(rejected_moved s b fStake).trans (invalidChainFound_moved _ back),
          hcount.trans_le hlower.le, ⟨top, le_rfl, hkept.invalidChainFound back⟩, nofun,
          fun hne => absurd rfl hne, fun _ => hcount.trans_lt hlower⟩, nofun⟩
    | error fStake =>
      have htip := hprev.trans (h.active.tip_eq h.wf).symm
      have hdata : (s.nStatus b).haveData = true := hnext.data
      unfold connectTip
      rw [if_neg (not_not.mpr htip), hdata, hverdict]
      exact .inr ⟨rfl, b, fStake, htip, hverdict⟩

/-- The blocks of one round lead from the tip towards the target. -/
theorem toConnect_spec {s : BlockTree ι} {target : Nat} (hwf : s.WellFormed v.hashGenesisBlock)
    (hm : m ∈ s.mapBlockIndex) (htm : s.Anc t m) (hlow : s.nHeight t < target)
    (hhigh : target ≤ s.nHeight m + 1) : ∃ last, s.Anc last m ∧ s.nHeight last + 1 = target ∧
      Lineage.Path s.pprev t (s.toConnect m (s.nHeight t + 1) target) last := by
  have hle : target - 1 ≤ s.nHeight m := by omega
  obtain ⟨last, hget, hlast, hheight⟩ := hwf.getAncestor_spec hm hle
  have hmem := hwf.rooted.mem_of_anc hm hlast
  have ht := hwf.rooted.mem_of_anc hm htm
  have htl : s.Anc t last := by
    rcases Lineage.Anc.total htm hlast with htl | hlt
    · exact htl
    · have heq := hwf.rooted.eq_of_anc_of_height_le ht hlt (by omega)
      exact heq ▸ .refl last
  refine ⟨last, hlast, by omega, ?_⟩
  have hpath := hwf.rooted.path_takeWhile hmem htl
  unfold toConnect HeaderTree.lineage
  rw [hget, Option.elim_some]
  simpa using hpath

/-- A round that has connected all its blocks is followed by the next one. -/
theorem RoundSpec.trans {s s₁ s' : BlockTree ι} {top₁ last' t' : ι} {roundEnd : RoundEnd}
    (hmoved : s.Moved s₁) (hcount : s₁.unfailed ≤ s.unfailed)
    (htop : s.workKey top ≤ s.workKey top₁) (h : RoundSpec v s₁ s' top₁ m last roundEnd t')
    (hlast : last = last') : RoundSpec v s s' top m last' roundEnd t' where
  moved := hmoved.trans h.moved
  count := h.count.trans hcount
  kept := by
    obtain ⟨top', htop', hkept⟩ := h.kept
    rw [hmoved.workKey] at htop'
    exact ⟨top', htop.trans htop', hkept⟩
  more := fun hmore => (h.more hmore).trans hlast
  target := fun hne => ⟨(h.target hne).1, hmoved.anc.mp (h.target hne).2⟩
  invalid := fun hinv => (h.invalid hinv).trans_le hcount

theorem connectLoop_spec (hintact : v.Intact) (old : Option ι) :
    ∀ k (s : BlockTree ι) (t top : ι), s.Kept v t top [] → s.Target t m → s.Anc t m →
      s.nHeight m < s.nHeight t + k →
      Ends (fun r => ∃ t', RoundSpec v s r.1 top m m r.2 t' ∧ (r.2 ≠ .invalid →
          s.nHeight t ≤ s.nHeight t' ∧ (t ≠ m → s.nHeight t < s.nHeight t'))) (Halted.Excused v)
        (connectLoop v old m k (s.nHeight t + 1) s) := by
  intro k
  induction k with
  | zero =>
    intro s t top h htarget htm hheight
    have := h.wf.rooted.height_le (h.candidates.mem m htarget.mem).1 htm
    omega
  | succ k ih =>
    intro s t top h htarget htm hheight
    have hm := (h.candidates.mem m htarget.mem).1
    have hle := h.wf.rooted.height_le hm htm
    unfold connectLoop
    refine .ite (fun hend => ?_) fun hend => ?_
    · -- at the height of the target the loop is over
      obtain rfl := h.wf.rooted.eq_of_anc_of_height_le hm htm (by omega)
      exact ⟨t, ⟨.refl s, le_rfl, ⟨top, le_rfl, h⟩, fun _ => rfl,
        fun _ => ⟨htarget, htm⟩, nofun⟩, fun _ => ⟨le_rfl, fun hne => absurd rfl hne⟩⟩
    · dsimp only
      set target := min (s.nHeight t + 1 + 32) (s.nHeight m + 1) with htgt
      have hlow : s.nHeight t < target := by omega
      have hhigh : target ≤ s.nHeight m + 1 := by omega
      obtain ⟨last, hlast, hlheight, hpath⟩ := toConnect_spec h.wf hm htm hlow hhigh
      refine (connectBlocks_spec hintact old ((s.toConnect m (s.nHeight t + 1) target).headD m)
        s t top h htarget hpath hlast).bind ?_
      rintro ⟨s₁, roundEnd⟩ ⟨t₁, hspec, hprogress⟩
      dsimp only at hspec hprogress
      cases roundEnd with
      | more =>
        obtain rfl := hspec.more rfl
        obtain ⟨top₁, htop₁, hkept₁⟩ := hspec.kept
        obtain ⟨htarget₁, hanc₁⟩ := hspec.target (by decide)
        have hrest := ih s₁ t₁ top₁ hkept₁ htarget₁ (hspec.moved.anc.mpr hanc₁)
          (by rw [hspec.moved.nHeight]; omega)
        rw [hspec.moved.nHeight, hlheight] at hrest
        refine hrest.mono ?_
        rintro r ⟨t', hspec', hprogress'⟩
        refine ⟨t', hspec'.trans hspec.moved hspec.count htop₁ rfl, fun hne => ?_⟩
        have hle' := (hprogress' hne).1
        exact ⟨by omega, fun _ => by omega⟩
      | better =>
        exact ⟨t₁, ⟨hspec.moved, hspec.count, hspec.kept, nofun, hspec.target, nofun⟩,
          fun _ => ⟨(hprogress rfl).le, fun _ => hprogress rfl⟩⟩
      | invalid =>
        exact ⟨t₁, ⟨hspec.moved, hspec.count, hspec.kept, nofun, hspec.target, hspec.invalid⟩,
          fun hne => absurd rfl hne⟩

/-! ## One step and the loop around it

So the number of unmarked blocks falls or the way to the target gets shorter (`activateLoop_spec`).
-/

theorem exists_fork {s : BlockTree ι} (h : s.Kept v t top []) (hm : m ∈ s.mapBlockIndex) :
    ∃ f, s.findFork m = some f ∧ IsFork s t m f := by
  obtain ⟨f, hfind, hfm, hft, hlast⟩ := h.active.findFork_spec h.wf hm
  exact ⟨f, hfind, hfm, hft, hlast⟩

/-- What a step leaves behind, with the tip at `t'`. -/
structure StepSpec (v : Validator ι) (s s' : BlockTree ι) (t top m : ι) (fInvalidFound : Bool)
    (t' : ι) : Prop where
  moved : s.Moved s'
  kept : ∃ top', s.workKey top ≤ s.workKey top' ∧ s'.Kept v t' top' []
  invalid : fInvalidFound = true → s'.unfailed < s.unfailed
  count : s'.unfailed ≤ s.unfailed
  target : fInvalidFound = false → s'.Target t' m ∧ s.Anc t' m
  progress : fInvalidFound = false → s.Anc t m → t ≠ m → s.nHeight t < s.nHeight t'

theorem activateBestChainStep_spec (hintact : v.Intact) {s : BlockTree ι} (h : s.Kept v t top [])
    (htarget : s.Target t m) :
    Ends (fun r => ∃ t', StepSpec v s r.1 t top m r.2 t') (Halted.Excused v)
      (activateBestChainStep v m s) := by
  have hm := (h.candidates.mem m htarget.mem).1
  obtain ⟨f, hfind, hfork⟩ := h.exists_fork hm
  have hlen := h.active.length_vChain h.wf
  unfold activateBestChainStep
  rw [hfind]
  refine ((disconnectTo_spec (s.vChain.length + 1) s t h htarget hfork (by omega)).excuse
    fun _ => .inl).bind ?_
  rintro s₁ ⟨hkept₁, htarget₁, hmoved₁, hcount₁⟩
  have hloop := connectLoop_spec hintact s.tip (s.nHeight m + 1) s₁ f top hkept₁ htarget₁
    (hmoved₁.anc.mpr hfork.anc_target) (by rw [hmoved₁.nHeight]; omega)
  rw [hmoved₁.nHeight] at hloop
  rw [Option.elim_some]
  refine hloop.bind ?_
  rintro ⟨s', roundEnd⟩ ⟨t', hspec, hprogress⟩
  refine ⟨t', hmoved₁.trans hspec.moved, ?_, fun hinv => ?_, hspec.count.trans_eq hcount₁,
    fun hinv => ?_, fun hinv htm hne => ?_⟩
  · obtain ⟨top', htop', hkept'⟩ := hspec.kept
    rw [hmoved₁.workKey] at htop'
    exact ⟨top', htop', hkept'⟩
  · exact (hspec.invalid (of_decide_eq_true hinv)).trans_eq hcount₁
  · obtain ⟨htarget', hanc'⟩ := hspec.target (of_decide_eq_false hinv)
    exact ⟨htarget', hmoved₁.anc.mp hanc'⟩
  · -- the tip is on the way already, so nothing has been disconnected
    have hft : f = t := h.wf.rooted.eq_of_anc_of_height_le h.active.mem hfork.anc_tip
      (h.wf.rooted.height_le (h.wf.rooted.mem_of_anc hm hfork.anc_target)
        (hfork.last t htm (.refl t)))
    rw [hft] at hprogress
    exact (hprogress (of_decide_eq_false hinv)).2 hne

/-- When the tip is the best candidate, it is `top`. -/
theorem settle {s : BlockTree ι} (h : s.Kept v m top []) (htarget : s.Target m m) :
    s.Kept v m m [] := by
  have htop : s.workKey top ≤ s.workKey m := htarget.best top h.candidates.top_mem
  refine ⟨h.wf, h.records, h.unpruned, h.waiting, h.active, h.connected, h.linked, ?_, le_rfl⟩
  refine ⟨fun c hc => ?_, htarget.mem, fun a ha hoff => absurd ha hoff,
    fun c hc hl hd hi hle => h.candidates.complete c hc hl hd hi (htop.trans hle)⟩
  obtain ⟨hcm, hcl, hcle⟩ := h.candidates.mem c hc
  exact ⟨hcm, hcl, h.tip_le.trans hcle⟩

end Kept

/-- What falls from round to round: the number of blocks without a mark, then the way to the target. -/
def roundsLeft (s : BlockTree ι) (t : ι) (kept : Option ι) : Nat :=
  s.unfailed * (s.mapBlockIndex.length + 2) +
    kept.elim (s.mapBlockIndex.length + 1) fun m => s.nHeight m - s.nHeight t

/-- The target kept from the round before is on the way. -/
def OnTheWay (s : BlockTree ι) (t : ι) (kept : Option ι) : Prop :=
  ∀ m, kept = some m → s.Target t m ∧ s.Anc t m ∧ t ≠ m

/-- A call that began with `top` ends: with an excuse, or with the best candidate as the tip, which is
at least as good as `top`. -/
def Settles (v : Validator ι) (s : BlockTree ι) (top : ι)
    (result : Except (Halted ι) (BlockTree ι)) : Prop :=
  (∃ e, result = .error e ∧ e.Excused v) ∨
    ∃ s' t', result = .ok s' ∧ s'.Kept v t' t' [] ∧ s'.Target t' t' ∧ s.Moved s' ∧
      s.workKey top ≤ s.workKey t'

omit [LinearOrder ι] in
theorem roundsLeft_of_unfailed {s : BlockTree ι} (t t' : ι) (kept : Option ι) (hmoved : s.Moved s')
    (hlt : s'.unfailed < s.unfailed) : s'.roundsLeft t' none < s.roundsLeft t kept := by
  have hmul : (s'.unfailed + 1) * (s.mapBlockIndex.length + 2) ≤
      s.unfailed * (s.mapBlockIndex.length + 2) := Nat.mul_le_mul_right _ hlt
  rw [add_mul] at hmul
  unfold roundsLeft
  rw [hmoved.mapBlockIndex, Option.elim_none]
  omega

namespace Kept

/-- A target, kept or found, which leaves fewer rounds once the tip has moved towards it. -/
theorem mostWork_spec {s : BlockTree ι} {kept : Option ι} (h : s.Kept v t top [])
    (hway : s.OnTheWay t kept) :
    ∃ s₁ m, s.mostWork kept = .ok (s₁, some m) ∧ s₁.Kept v t top [] ∧ s₁.Target t m ∧ s.Moved s₁ ∧
      s₁.unfailed = s.unfailed ∧
      ∀ t', s₁.Anc t' m → (s₁.Anc t m → t ≠ m → s₁.nHeight t < s₁.nHeight t') →
        s₁.unfailed * (s₁.mapBlockIndex.length + 2) + (s₁.nHeight m - s₁.nHeight t') <
          s.roundsLeft t kept := by
  cases kept with
  | some b =>
    obtain ⟨htarget, hanc, hne⟩ := hway b rfl
    refine ⟨s, b, rfl, h, htarget, .refl s, rfl, fun t' hanc' hprogress => ?_⟩
    have h1 := hprogress hanc hne
    have h2 := h.wf.rooted.height_le (h.candidates.mem b htarget.mem).1 hanc'
    unfold roundsLeft
    rw [Option.elim_some]
    omega
  | none =>
    obtain ⟨s₁, m, hrun, h₁, htarget, hmoved, hcount⟩ :=
      findMostWorkChain_spec (s.setBlockIndexCandidates.length + 1) s h (Nat.lt_succ_self _)
    refine ⟨s₁, m, hrun, h₁, htarget, hmoved, hcount, fun t' _ _ => ?_⟩
    have hlt : s₁.nHeight m < s₁.mapBlockIndex.length :=
      h₁.wf.rooted.height_lt (h₁.candidates.mem m htarget.mem).1
    rw [hmoved.mapBlockIndex] at hlt
    unfold roundsLeft
    rw [hcount, hmoved.mapBlockIndex, Option.elim_none]
    omega

theorem activateLoop_spec (hintact : v.Intact) :
    ∀ n (s : BlockTree ι) (t top : ι) (kept : Option ι), s.Kept v t top [] → s.OnTheWay t kept →
      s.roundsLeft t kept < n → s.Settles v top (activateLoop v n kept s) := by
  intro n
  induction n with
  | zero => exact fun s t top kept _ _ hlt => absurd hlt (Nat.not_lt_zero _)
  | succ n ih =>
    intro s t top kept h hway hrounds
    obtain ⟨s₁, m, hfind, h₁, htarget, hmoved, hcount, hfewer⟩ := h.mostWork_spec hway
    rw [activateLoop_succ hfind]
    by_cases htip : t = m
    · -- the tip is the best candidate
      subst htip
      rw [if_pos (h₁.active.tip_eq h₁.wf)]
      have hle := htarget.best top h₁.candidates.top_mem
      rw [hmoved.workKey] at hle
      exact .inr ⟨s₁, t, rfl, h₁.settle htarget, htarget, hmoved, hle⟩
    · rw [if_neg (by rw [h₁.active.tip_eq h₁.wf]; exact fun heq => htip (Option.some.inj heq))]
      rcases (activateBestChainStep_spec hintact h₁ htarget).or_of_ends with
        ⟨e, herr, hexcused⟩ | ⟨⟨s₂, fInvalidFound⟩, hstep, t₂, hspec⟩
      · rw [herr]
        exact .inl ⟨e, rfl, hexcused⟩
      · rw [hstep]
        dsimp only at hspec
        obtain ⟨top₂, htop₂, h₂⟩ := hspec.kept
        rw [hmoved.workKey] at htop₂
        have hmoved₂ := hmoved.trans hspec.moved
        -- the rest of the loop, from what the step leaves
        have hrest : ∀ kept₂, s₂.OnTheWay t₂ kept₂ → s₂.roundsLeft t₂ kept₂ < n →
            s.Settles v top (activateLoop v n kept₂ s₂) := by
          intro kept₂ hway₂ hlt
          rcases ih s₂ t₂ top₂ kept₂ h₂ hway₂ hlt with herr | ⟨s', t', hok, hkept, htar, hmov, hle⟩
          · exact .inl herr
          · rw [hmoved₂.workKey] at hle
            exact .inr ⟨s', t', hok, hkept, htar, hmoved₂.trans hmov, htop₂.trans hle⟩
        cases fInvalidFound with
        | true =>
          have hlt : s₂.unfailed < s.unfailed := (hspec.invalid rfl).trans_eq hcount
          have := roundsLeft_of_unfailed t t₂ kept hmoved₂ hlt
          exact hrest none (fun m hnone => absurd hnone (Option.some_ne_none m).symm) (by omega)
        | false =>
          obtain ⟨htarget₂, hanc₂⟩ := hspec.target rfl
          have hfewer₂ := hfewer t₂ hanc₂ (hspec.progress rfl)
          show s.Settles v top (if s₂.tip = some m then .ok s₂ else activateLoop v n (some m) s₂)
          by_cases htip₂ : t₂ = m
          · subst htip₂
            have hle := htarget₂.best top₂ h₂.candidates.top_mem
            rw [hmoved₂.workKey] at hle
            rw [if_pos (h₂.active.tip_eq h₂.wf)]
            exact .inr ⟨s₂, t₂, rfl, h₂.settle htarget₂, htarget₂, hmoved₂, htop₂.trans hle⟩
          · rw [if_neg (by rw [h₂.active.tip_eq h₂.wf]; exact fun heq => htip₂ (Option.some.inj heq))]
            refine hrest (some m) ?_ ?_
            · rintro m' heq
              obtain rfl := Option.some.inj heq
              exact ⟨htarget₂, hspec.moved.anc.mpr hanc₂, htip₂⟩
            · have hsub : s₂.roundsLeft t₂ (some m) ≤
                  s₁.unfailed * (s₁.mapBlockIndex.length + 2) + (s₁.nHeight m - s₁.nHeight t₂) := by
                unfold roundsLeft
                rw [hspec.moved.mapBlockIndex, hspec.moved.nHeight, Option.elim_some]
                exact Nat.add_le_add_right (Nat.mul_le_mul_right _ hspec.count) _
              omega

/-- `ActivateBestChain` returns true or has an excuse. Then the tip is the best candidate, with no less
work than before. -/
theorem activateBestChain_spec (hintact : v.Intact) {s : BlockTree ι} (h : s.Kept v t t []) :
    s.Settles v t (s.activateBestChain v) := by
  refine activateLoop_spec hintact _ s t t none h nofun ?_
  have hle : s.unfailed ≤ s.mapBlockIndex.length := length_filter_le _ _
  have hmul := Nat.mul_le_mul_right (s.mapBlockIndex.length + 2) hle
  unfold roundsLeft
  rw [Option.elim_none, add_mul]
  omega

end Kept

end BlockTree

end Chratos
