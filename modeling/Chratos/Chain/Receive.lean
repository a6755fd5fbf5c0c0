import Chratos.Chain.Bookkeeping

/-!
# Chratos — headers and block data arrive

`AddToBlockIndex` and `ReceivedBlockTransactions` keep the bookkeeping. The data of a block links it,
and with it the blocks that have waited for it, one after another (`linkQueue`); in the middle of that
the blocks still to be linked are the `queue` of `Kept`.

Data may arrive again for a block whose data has been pruned. That block has its sequence id already,
and gets a new one; where it or a block linked after it is a candidate at that time, the order of
`setBlockIndexCandidates` changes under the set. `Relinks` names the condition that keeps this from
happening.
-/

namespace Chratos

open List Function BlockIndex
open Lineage (anc_iff_of_parent)

namespace BlockTree

variable {ι : Type} [LinearOrder ι]

/-- The bookkeeping between two calls, with the tip at `t`. -/
structure Sound (v : Validator ι) (s : BlockTree ι) (t : ι) : Prop where
  kept : s.Kept v t t []
  unlinked : s.Unlinked s.mapBlocksUnlinked []

variable {v : Validator ι} {s : BlockTree ι} {t : ι}

/-! ## Headers -/

/-- `s'` is `s` with the header `b` under `p`. -/
structure Extends (s s' : BlockTree ι) (b p : ι) : Prop where
  mapBlockIndex : s'.mapBlockIndex = b :: s.mapBlockIndex
  fresh : b ∉ s.mapBlockIndex
  pprev_new : s'.pprev b = some p
  pprev : ∀ x ∈ s.mapBlockIndex, s'.pprev x = s.pprev x
  nHeight : ∀ x ∈ s.mapBlockIndex, s'.nHeight x = s.nHeight x
  nTx : ∀ x ∈ s.mapBlockIndex, s'.nTx x = s.nTx x
  nChainTx : ∀ x ∈ s.mapBlockIndex, s'.nChainTx x = s.nChainTx x
  nStatus : ∀ x ∈ s.mapBlockIndex, s'.nStatus x = s.nStatus x
  nSequenceId : ∀ x ∈ s.mapBlockIndex, s'.nSequenceId x = s.nSequenceId x
  workKey : ∀ x ∈ s.mapBlockIndex, s'.workKey x = s.workKey x
  nTx_new : s'.nTx b = 0
  nChainTx_new : s'.nChainTx b = 0
  nStatus_new : s'.nStatus b = { valid := .tree }
  nSequenceId_new : s'.nSequenceId b = 0
  vChain : s'.vChain = s.vChain
  candidates : s'.setBlockIndexCandidates = s.setBlockIndexCandidates
  unlinked : s'.mapBlocksUnlinked = s.mapBlocksUnlinked
  fHavePruned : s'.fHavePruned = s.fHavePruned

theorem extends_addToBlockIndex {block : Header ι} {p : ι} (hfresh : block.hash ∉ s.mapBlockIndex)
    (hp : p ∈ s.mapBlockIndex) (hprev : block.hashPrevBlock = some p) :
    Extends s (s.addToBlockIndex block) block.hash p := by
  have hold : ∀ {α : Type} (f : ι → α) (a : α), ∀ x ∈ s.mapBlockIndex,
      update f block.hash a x = f x :=
    fun f a x hx => update_of_ne (ne_of_mem_of_not_mem hx hfresh) a f
  have hfilter : block.hashPrevBlock.filter (· ∈ block.hash :: s.mapBlockIndex) = some p := by
    rw [hprev, Option.filter_some, if_pos (by simpa using .inr hp)]
  unfold BlockTree.addToBlockIndex
  rw [if_neg hfresh]
  simp only [hfilter, Option.elim_some]
  -- every field is written at the new block only
  refine ⟨rfl, hfresh, update_self _ _ _, hold _ _, hold _ _, hold _ _, hold _ _, hold _ _,
    hold _ _, ?_, update_self _ _ _, update_self _ _ _, ?_, update_self _ _ _,
    rfl, rfl, rfl, rfl⟩
  · intro x hx
    unfold workKey
    dsimp only
    rw [hold _ _ x hx, hold _ _ x hx]
  · dsimp only
    rw [update_self]
    rfl

section

variable {s' : BlockTree ι} {b p : ι} (he : Extends s s' b p) (h : s.Sound v t)
  (hwf : s'.WellFormed v.hashGenesisBlock)

include he h

variable {x : ι}

theorem Extends.anc {a : ι} (hx : x ∈ s.mapBlockIndex) : s'.Anc a x ↔ s.Anc a x :=
  h.kept.wf.rooted.anc_congr he.pprev hx

omit [LinearOrder ι] h in
/-- A known block other than the new one has been there before. -/
theorem Extends.cases {motive : ι → Prop} (hnew : motive b) (hrest : ∀ x ∈ s.mapBlockIndex, motive x) :
    ∀ x ∈ s'.mapBlockIndex, motive x := by
  rw [he.mapBlockIndex]
  exact forall_mem_cons.mpr ⟨hnew, hrest⟩

omit [LinearOrder ι] h in
theorem Extends.linked_iff (hx : x ∈ s.mapBlockIndex) : s'.Linked x ↔ s.Linked x := by
  unfold BlockIndex.Linked
  rw [he.nChainTx x hx]

omit [LinearOrder ι] h in
theorem Extends.data_iff (hx : x ∈ s.mapBlockIndex) : s'.HasData x ↔ s.HasData x := by
  unfold BlockIndex.HasData
  rw [he.nStatus x hx]

omit [LinearOrder ι] h in
theorem Extends.failed_iff (hx : x ∈ s.mapBlockIndex) : s'.Failed x ↔ s.Failed x := by
  unfold BlockIndex.Failed
  rw [he.nStatus x hx]

theorem Extends.orphaned (hx : x ∈ s.mapBlockIndex) (ho : s.Orphaned x) : s'.Orphaned x := by
  obtain ⟨q, hq, hfailed, htx⟩ := ho
  have hqm := h.kept.wf.rooted.mem_parent hx hq
  exact ⟨q, (he.pprev x hx).trans hq, (he.failed_iff hqm).mpr hfailed, (he.nTx q hqm).trans htx⟩

theorem Extends.invalid (hx : x ∈ s.mapBlockIndex) : s'.Invalid x ↔ s.Invalid x := by
  refine exists_congr fun a => ?_
  rw [he.anc h hx]
  refine and_congr_right fun ha => ?_
  rw [he.nStatus a (h.kept.wf.rooted.mem_of_anc hx ha)]

theorem Extends.records : s'.Records v.hashGenesisBlock := by
  have hrec := h.kept.records
  have hroot := h.kept.wf.rooted
  have hnot : ¬ s'.Linked b := not_not.mpr he.nChainTx_new
  refine ⟨he.cases ?_ fun x hx => ?_, he.cases ?_ fun x hx => ?_, he.cases ?_ fun x hx => ?_,
    he.cases ?_ fun x hx => ?_, he.cases ?_ fun x hx => ?_, he.cases ?_ fun x hx => ?_,
    he.cases ?_ fun x hx => ?_, he.cases ?_ fun x hx => ?_⟩
  · rw [he.nStatus_new]
  · rw [he.nStatus x hx]
    exact hrec.tree x hx
  · rw [he.nStatus_new, he.nTx_new]
    exact iff_of_false (by decide) (not_not.mpr rfl)
  · rw [he.nStatus x hx, he.nTx x hx]
    exact hrec.transactions x hx
  · rw [he.nStatus_new]
    intro q _ _ level hlevel hle
    exact absurd (hlevel.trans hle) (by decide)
  · intro q hq hne level hlevel hle
    rw [he.pprev x hx] at hq
    rw [he.nStatus x hx] at hle
    rw [he.nStatus q (hroot.mem_parent hx hq)]
    exact hrec.chain x hx q hq hne level hlevel hle
  · rw [he.nStatus_new]
    nofun
  · rw [he.nStatus x hx, he.data_iff hx]
    exact hrec.undo x hx
  · unfold BlockIndex.HasData
    rw [he.nStatus_new]
    nofun
  · rw [he.data_iff hx, he.nTx x hx]
    exact hrec.data x hx
  · exact fun hl => absurd hl hnot
  · intro hl
    obtain ⟨htx, hparent⟩ := hrec.linked x hx ((he.linked_iff hx).mp hl)
    refine ⟨by rw [he.nTx x hx]; exact htx, fun q hq => ?_⟩
    rw [he.pprev x hx] at hq
    exact (he.linked_iff (hroot.mem_parent hx hq)).mpr (hparent q hq)
  · exact fun _ => he.nSequenceId_new
  · rw [he.linked_iff hx, he.nSequenceId x hx]
    exact hrec.sequence x hx
  · unfold BlockIndex.Failed
    rw [he.nStatus_new]
    nofun
  · rw [he.failed_iff hx, he.invalid h hx]
    exact hrec.failed x hx

include hwf

theorem Extends.sound : s'.Sound v t := by
  have hkept := h.kept
  have hroot := hkept.wf.rooted
  have hnot : ¬ s'.Linked b := not_not.mpr he.nChainTx_new
  have hmem : ∀ x ∈ s.mapBlockIndex, x ∈ s'.mapBlockIndex := fun x hx =>
    he.mapBlockIndex ▸ mem_cons_of_mem _ hx
  have htm := hkept.active.mem
  have hentry := hkept.waiting.entry
  have hparent : ∀ e ∈ s.mapBlocksUnlinked, e.1 ∈ s.mapBlockIndex := fun e hmem =>
    hroot.mem_parent (hentry e hmem).1 (hentry e hmem).2.1
  refine ⟨⟨hwf, he.records h, ?_, ?_, ⟨hmem t htm, ?_⟩, ?_, (he.linked_iff htm).mpr hkept.linked, ?_,
    le_rfl⟩, ?_⟩
  · intro hpruned
    rw [he.fHavePruned] at hpruned
    refine he.cases (fun htx => absurd he.nTx_new htx) fun x hx htx => ?_
    rw [he.nTx x hx] at htx
    exact (he.data_iff hx).mpr (hkept.unpruned hpruned x hx htx)
  · rw [he.unlinked]
    refine ⟨fun e hin => ?_, fun e hin hanc => ?_, fun e hin => ?_, he.cases ?_ fun x hx htx hpar => ?_⟩
    · obtain ⟨hxm, hprev, hd⟩ := hentry e hin
      exact ⟨hmem _ hxm, (he.pprev _ hxm).trans hprev, (he.data_iff hxm).mpr hd⟩
    · exact hkept.waiting.off e hin ((he.anc h htm).mp hanc)
    · have hpm := hparent e hin
      exact (hkept.waiting.cause e hin).imp (mt (he.data_iff hpm).mp)
        (Or.imp_right (Or.imp_right (he.orphaned h hpm)))
    · exact fun htx => absurd he.nTx_new htx
    · rw [he.nTx x hx] at htx
      refine (hkept.waiting.links x hx htx fun q hq => ?_).imp_left (he.linked_iff hx).mpr
      exact (he.linked_iff (hroot.mem_parent hx hq)).mp (hpar q ((he.pprev x hx).trans hq))
  · rw [he.vChain, hkept.active.vChain_eq]
    exact congrArg List.reverse (hroot.lineage_congr he.pprev he.nHeight htm).symm
  · intro a ha
    have hat := (he.anc h htm).mp ha
    have hcon := hkept.connected a hat
    have ham := hroot.mem_of_anc htm hat
    exact ⟨mt (he.failed_iff ham).mp hcon.not_failed, fun hne =>
      by rw [he.nStatus a ham]; exact hcon.scripts hne,
      hcon.verdict⟩
  · rw [he.candidates, he.unlinked]
    refine ⟨fun c hc => ?_, hkept.candidates.top_mem, fun a ha hoff => absurd ha hoff,
      he.cases (fun hl => absurd hl hnot) fun x hx hl hd hinv hle => ?_⟩
    · obtain ⟨hcm, hcl, hle⟩ := hkept.candidates.mem c hc
      rw [he.workKey t htm, he.workKey c hcm]
      exact ⟨hmem c hcm, (he.linked_iff hcm).mpr hcl, hle⟩
    · rw [he.workKey t htm, he.workKey x hx] at hle
      exact hkept.candidates.complete x hx ((he.linked_iff hx).mp hl) ((he.data_iff hx).mp hd)
        (mt (he.invalid h hx).mpr hinv) hle
  · rw [he.unlinked]
    refine ⟨fun x hl => ?_, he.cases (fun htx => absurd he.nTx_new htx) fun x hx htx hl => ?_⟩
    · by_cases hx : x ∈ s.mapBlockIndex
      · exact h.unlinked.once x (mt (he.linked_iff hx).mpr hl)
      · -- only known blocks are listed
        refine le_of_eq_of_le (List.count_eq_zero.mpr fun hin => ?_) (Nat.zero_le 1)
        obtain ⟨e, hmem, rfl⟩ := mem_map.mp hin
        exact hx (hentry e hmem).1
    · rw [he.nTx x hx] at htx
      exact (h.unlinked.waits x hx htx (mt (he.linked_iff hx).mpr hl)).imp_right
        (Or.imp_right (he.orphaned h hx))

end

/-- A header under a known parent, if its proof adds to the work. -/
theorem Sound.addToBlockIndex (h : s.Sound v t) {block : Header ι} {p : ι} (hp : p ∈ s.mapBlockIndex)
    (hprev : block.hashPrevBlock = some p)
    (hwork : s.nChainWork p < (s.nChainWork p + getBlockProof block.nBits) % 2 ^ 256) :
    (s.addToBlockIndex block).Sound v t := by
  by_cases hknown : block.hash ∈ s.mapBlockIndex
  · unfold BlockTree.addToBlockIndex
    rw [if_pos hknown]
    exact h
  · exact (extends_addToBlockIndex hknown hp hprev).sound h
      (wellFormed_addToBlockIndex h.kept.wf hp hprev hwork)

/-! ## Block data -/

/-- The blocks that a call links, in their order. -/
def linkOrder : Nat → List (ι × ι) → List ι → List ι
  | 0, _, _ => []
  | _ + 1, _, [] => []
  | n + 1, unlinked, b :: queue =>
    b :: linkOrder n (unlinked.filter (·.1 ≠ b)) (queue ++ (unlinked.filter (·.1 = b)).map Prod.snd)

/-- The data of a block is there. Its count of the chain's transactions is left as it is. -/
def refresh (s : BlockTree ι) (x : ι) (nVtx file : Nat) : BlockTree ι :=
  { s.receiveData x nVtx file with nChainTx := s.nChainTx }

/-- What holds for the blocks in the queue: they can be linked. -/
structure Queued (s : BlockTree ι) (queue order : List ι) : Prop where
  mem : ∀ b ∈ queue, b ∈ s.mapBlockIndex ∧ s.HasData b ∧ ∀ p, s.pprev b = some p → s.Linked p
  /-- Their counts do not overflow. -/
  fits : ∀ b ∈ queue, (s.pprev b).elim 0 s.nChainTx + (order.map s.nTx).sum < 2 ^ 32
  nodup : order.Nodup
  /-- None of them is a candidate. -/
  disjoint : ∀ b ∈ order, b ∉ s.setBlockIndexCandidates

/-! ### The data arrives -/

section

variable {x : ι} {nVtx file : Nat}

theorem refresh_of_ne {y : ι} (hne : y ≠ x) :
    (s.refresh x nVtx file).nStatus y = s.nStatus y ∧ (s.refresh x nVtx file).nTx y = s.nTx y :=
  ⟨update_of_ne hne _ _, update_of_ne hne _ _⟩

theorem refresh_nTx (hpos : 0 < nVtx) (hsmall : nVtx < 2 ^ 32) : (s.refresh x nVtx file).nTx x ≠ 0 := by
  show update s.nTx x (nVtx % 2 ^ 32) x ≠ 0
  rw [update_self, Nat.mod_eq_of_lt hsmall]
  omega

theorem refresh_nStatus :
    (s.refresh x nVtx file).nStatus x =
      { s.nStatus x with haveData := true }.raiseValidity .transactions :=
  update_self _ _ _

/-- No mark is set or taken away. -/
theorem refresh_marks (y : ι) : ((s.refresh x nVtx file).nStatus y).failed = (s.nStatus y).failed ∧
      ((s.refresh x nVtx file).nStatus y).failedValid = (s.nStatus y).failedValid := by
  by_cases hyx : y = x
  · subst hyx
    rw [refresh_nStatus, BlockStatus.raiseValidity_failed, BlockStatus.raiseValidity_failedValid]
    exact ⟨rfl, rfl⟩
  · rw [(refresh_of_ne hyx).1]
    exact ⟨rfl, rfl⟩

theorem refresh_data (y : ι) : (s.refresh x nVtx file).HasData y ↔ s.HasData y ∨ y = x := by
  unfold BlockIndex.HasData
  by_cases hyx : y = x
  · subst hyx
    rw [refresh_nStatus, BlockStatus.raiseValidity_haveData]
    exact iff_of_true rfl (.inr rfl)
  · rw [(refresh_of_ne hyx).1]
    exact (or_iff_left hyx).symm

theorem refresh_invalid (y : ι) : (s.refresh x nVtx file).Invalid y ↔ s.Invalid y := by
  refine exists_congr fun a => and_congr_right fun _ => ?_
  rw [(refresh_marks a).2]

/-- A block that has not failed reaches `BLOCK_VALID_TRANSACTIONS`. -/
theorem refresh_valid (hfailed : ¬ s.Failed x) :
    ((s.refresh x nVtx file).nStatus x).valid = max (s.nStatus x).valid .transactions := by
  have hnot : ({ s.nStatus x with haveData := true } : BlockStatus).failed = false :=
    Bool.not_eq_true _ ▸ hfailed
  rw [refresh_nStatus, BlockStatus.raiseValidity_valid hnot]

variable (h : s.Sound v t) (hx : x ∈ s.mapBlockIndex) (hfailed : ¬ s.Failed x) (hpos : 0 < nVtx)
  (hsmall : nVtx < 2 ^ 32)

include h hx hfailed hpos hsmall

theorem refresh_records : (s.refresh x nVtx file).Records v.hashGenesisBlock := by
  have hrec := h.kept.records
  have htx : (s.refresh x nVtx file).nTx x ≠ 0 := refresh_nTx hpos hsmall
  have hvalid : ((s.refresh x nVtx file).nStatus x).valid = max (s.nStatus x).valid .transactions :=
    refresh_valid hfailed
  have hle : ∀ y, (s.nStatus y).valid ≤ ((s.refresh x nVtx file).nStatus y).valid := by
    intro y
    by_cases hyx : y = x
    · rw [hyx, hvalid]
      exact le_max_left _ _
    · rw [(refresh_of_ne hyx).1]
  refine ⟨fun y hy => (hrec.tree y hy).trans (hle y), fun y hy => ?_,
    fun y hy p hp hne level hlevel hlevely => ?_, fun y hy hundo => ?_, fun y hy hdata => ?_,
    fun y hy hlinked => ?_, hrec.sequence, fun y hy hf => ?_⟩
  · by_cases hyx : y = x
    · subst hyx
      rw [hvalid]
      exact iff_of_true (le_max_right _ _) htx
    · rw [(refresh_of_ne hyx).1, (refresh_of_ne hyx).2]
      exact hrec.transactions y hy
  · -- the data does not lift a block to `BLOCK_VALID_CHAIN`
    refine (hrec.chain y hy p hp hne level hlevel ?_).trans (hle p)
    by_cases hyx : y = x
    · rw [hyx, hvalid, le_max_iff] at hlevely
      refine hyx ▸ hlevely.resolve_right fun hlow => ?_
      exact absurd (hlevel.trans hlow) (by decide)
    · rwa [(refresh_of_ne hyx).1] at hlevely
  · rw [refresh_data]
    by_cases hyx : y = x
    · exact .inr hyx
    · rw [(refresh_of_ne hyx).1] at hundo
      exact .inl (hrec.undo y hy hundo)
  · by_cases hyx : y = x
    · exact hyx ▸ htx
    · rw [(refresh_of_ne hyx).2]
      exact hrec.data y hy (((refresh_data y).mp hdata).resolve_right hyx)
  · obtain ⟨hty, hparent⟩ := hrec.linked y hy hlinked
    refine ⟨?_, hparent⟩
    by_cases hyx : y = x
    · exact hyx ▸ htx
    · rwa [(refresh_of_ne hyx).2]
  · unfold BlockIndex.Failed at hf
    rw [(refresh_marks y).1] at hf
    exact (refresh_invalid y).mpr (hrec.failed y hy hf)

omit h hx hpos hsmall in
theorem refresh_orphaned {y : ι} (ho : s.Orphaned y) : (s.refresh x nVtx file).Orphaned y := by
  obtain ⟨p, hp, hpf, htx⟩ := ho
  have hne : p ≠ x := fun heq => hfailed (heq ▸ hpf)
  refine ⟨p, hp, ?_, (refresh_of_ne hne).2.trans htx⟩
  show ((s.refresh x nVtx file).nStatus p).failed = true
  rw [(refresh_marks p).1]
  exact hpf

/-- With its data a block waits to be linked. -/
theorem refresh_kept : (s.refresh x nVtx file).Kept v t t [x] := by
  have hkept := h.kept
  refine ⟨hkept.wf, refresh_records h hx hfailed hpos hsmall, fun hpruned y hy htx => ?_, ?_,
    ⟨hkept.active.mem, hkept.active.vChain_eq⟩, fun a ha => ?_, hkept.linked, ?_, le_rfl⟩
  · rw [refresh_data]
    by_cases hyx : y = x
    · exact .inr hyx
    · rw [(refresh_of_ne hyx).2] at htx
      exact .inl (hkept.unpruned hpruned y hy htx)
  · refine ⟨fun e he => ?_, hkept.waiting.off, fun e he => ?_, fun y hy htx hparent => ?_⟩
    · obtain ⟨hmem, hprev, hdata⟩ := hkept.waiting.entry e he
      exact ⟨hmem, hprev, (refresh_data _).mpr (.inl hdata)⟩
    · by_cases hex : e.1 = x
      · exact .inr (.inr (.inl (hex ▸ mem_singleton_self x)))
      · refine (hkept.waiting.cause e he).imp (mt fun hd =>
          ((refresh_data _).mp hd).resolve_right hex) ?_
        exact Or.imp_right (Or.imp (absurd · not_mem_nil) (refresh_orphaned hfailed))
    · by_cases hyx : y = x
      · exact .inr (hyx ▸ mem_singleton_self x)
      · rw [(refresh_of_ne hyx).2] at htx
        exact .inl ((hkept.waiting.links y hy htx hparent).resolve_right not_mem_nil)
  · have hcon := hkept.connected a ha
    refine ⟨?_, fun hne => ?_, hcon.verdict⟩
    · unfold BlockIndex.Failed
      rw [(refresh_marks a).1]
      exact hcon.not_failed
    · by_cases hax : a = x
      · have hscripts := hcon.scripts hne
        rw [hax] at hscripts ⊢
        rw [refresh_valid hfailed, hscripts]
        rfl
      · rw [(refresh_of_ne hax).1]
        exact hcon.scripts hne
  · refine ⟨hkept.candidates.mem, hkept.candidates.top_mem, fun a ha hoff => absurd ha hoff,
      fun y hy hlinked hdata hinv hle => ?_⟩
    by_cases hyx : y = x
    · exact .inr (.inr (hyx ▸ mem_singleton_self x))
    · exact (hkept.candidates.complete y hy hlinked (((refresh_data y).mp hdata).resolve_right hyx)
        (mt (refresh_invalid y).mpr hinv) hle).imp_right (Or.imp_right (absurd · not_mem_nil))

omit hx hpos hsmall in
theorem refresh_unlinked : (s.refresh x nVtx file).Unlinked s.mapBlocksUnlinked [x] := by
  refine ⟨h.unlinked.once, fun y hy htx hlinked => ?_⟩
  by_cases hyx : y = x
  · exact .inr (.inl (hyx ▸ mem_singleton_self x))
  · rw [(refresh_of_ne hyx).2] at htx
    exact (h.unlinked.waits y hy htx hlinked).imp_right
      (Or.imp (absurd · not_mem_nil) (refresh_orphaned hfailed))

end

/-! ### A block is linked -/

/-- The state of the loop: the bookkeeping without the blocks of the queue, and the blocks that are
still to be linked. -/
structure Linking (v : Validator ι) (s : BlockTree ι) (t : ι) (queue order : List ι) : Prop where
  kept : s.Kept v t t queue
  unlinked : s.Unlinked s.mapBlocksUnlinked queue
  queued : Queued s queue order

/-- One round of the loop. -/
def linkStep (s : BlockTree ι) (b : ι) : BlockTree ι :=
  (s.linkBlock b).eraseRange b

section

variable {b : ι}

theorem linkStep_eq (s : BlockTree ι) (b : ι) : ∃ candidates, s.linkStep b = { s with
        nChainTx := update s.nChainTx b
          (((s.pprev b).elim 0 s.nChainTx + s.nTx b) % 2 ^ 32)
        nSequenceId := update s.nSequenceId b s.nBlockSequenceId
        nBlockSequenceId := (s.nBlockSequenceId + 1) % 2 ^ 32
        setBlockIndexCandidates := candidates
        mapBlocksUnlinked := s.mapBlocksUnlinked.filter (·.1 ≠ b) } ∧
      ∀ y, y ∈ candidates ↔ y ∈ s.setBlockIndexCandidates ∨
        y = b ∧ (s.linkStep b).notWorseThanTip b = true := by
  have hcase : ∀ s' : BlockTree ι, (if s'.notWorseThanTip b
      then { s' with setBlockIndexCandidates := s'.setBlockIndexCandidates.insert b } else s') =
      { s' with setBlockIndexCandidates :=
        if s'.notWorseThanTip b then s'.setBlockIndexCandidates.insert b
        else s'.setBlockIndexCandidates } := by
    intro s'
    split_ifs <;> rfl
  have hstep : s.linkStep b = (s.linkBlock b).eraseRange b := rfl
  unfold linkBlock eraseRange at hstep
  rw [hcase] at hstep
  refine ⟨_, hstep, fun y => ?_⟩
  rw [hstep]
  split_ifs with hworse
  · rw [mem_insert_iff]
    exact ⟨fun hy => hy.symm.imp_right fun heq => ⟨heq, hworse⟩, fun hy =>
      hy.symm.imp_left fun hpair => hpair.1⟩
  · exact ⟨.inl, fun hy => hy.resolve_right fun hpair => hworse hpair.2⟩

variable {y : ι}

theorem mem_unlinkedRange : y ∈ s.unlinkedRange b ↔ (b, y) ∈ s.mapBlocksUnlinked := by
  unfold unlinkedRange
  rw [mem_map]
  constructor
  · rintro ⟨e, he, rfl⟩
    obtain ⟨hmem, heq⟩ := mem_filter.mp he
    exact of_decide_eq_true heq ▸ hmem
  · intro hmem
    exact ⟨(b, y), mem_filter.mpr ⟨hmem, decide_eq_true rfl⟩, rfl⟩

/-- A listed block is still listed, or it is its turn to be linked. -/
theorem listed_filter {queue : List ι} (hyb : y ≠ b)
    (hlisted : BlockIndex.Listed s.mapBlocksUnlinked y ∨ y ∈ b :: queue) :
    BlockIndex.Listed (s.mapBlocksUnlinked.filter (·.1 ≠ b)) y ∨ y ∈ queue ++ s.unlinkedRange b := by
  rcases hlisted with ⟨p, hp⟩ | hq
  · by_cases hpb : p = b
    · exact .inr (mem_append_right _ (mem_unlinkedRange.mpr (hpb ▸ hp)))
    · exact .inl ⟨p, mem_filter.mpr ⟨hp, decide_eq_true hpb⟩⟩
  · exact .inr (mem_append_left _ ((mem_cons.mp hq).resolve_left hyb))

variable {queue order : List ι} (h : Linking v s t (b :: queue) (b :: order))

include h

theorem Linking.head : b ∈ s.mapBlockIndex ∧ s.HasData b ∧ ∀ p, s.pprev b = some p → s.Linked p :=
  h.queued.mem b mem_cons_self

theorem Linking.ne_tip : b ≠ t := by
  rintro rfl
  exact h.queued.disjoint b mem_cons_self h.kept.candidates.top_mem

/-- The count is that of the parent and the block's own, and not zero. -/
theorem Linking.count : ((s.pprev b).elim 0 s.nChainTx + s.nTx b) % 2 ^ 32 =
    (s.pprev b).elim 0 s.nChainTx + s.nTx b ∧ s.nTx b ≠ 0 := by
  obtain ⟨hbm, hdata, -⟩ := h.head
  have hfits := h.queued.fits b mem_cons_self
  rw [map_cons, sum_cons] at hfits
  exact ⟨Nat.mod_eq_of_lt (by omega), h.kept.records.data b hbm hdata⟩

theorem Linking.linked_iff : (s.linkStep b).Linked y ↔ s.Linked y ∨ y = b := by
  obtain ⟨candidates, heq, -⟩ := linkStep_eq s b
  obtain ⟨hmod, hpos⟩ := h.count
  rw [heq]
  show update s.nChainTx b _ y ≠ 0 ↔ s.nChainTx y ≠ 0 ∨ y = b
  by_cases hyb : y = b
  · rw [hyb, update_self, hmod]
    exact iff_of_true (by omega) (.inr rfl)
  · rw [update_of_ne hyb]
    exact (or_iff_left hyb).symm

omit h in
theorem linkStep_workKey (hne : y ≠ b) : (s.linkStep b).workKey y = s.workKey y := by
  obtain ⟨candidates, heq, -⟩ := linkStep_eq s b
  rw [heq]
  unfold workKey
  dsimp only
  rw [update_of_ne hne]

theorem Linking.records : (s.linkStep b).Records v.hashGenesisBlock := by
  have hrec := h.kept.records
  obtain ⟨candidates, heq, -⟩ := linkStep_eq s b
  obtain ⟨hbm, hdata, hparent⟩ := h.head
  have hlinked := fun y => h.linked_iff (y := y)
  rw [heq] at hlinked ⊢
  refine ⟨hrec.tree, hrec.transactions, hrec.chain, hrec.undo, hrec.data, fun y hy hl => ?_,
    fun y hy hnot => ?_, hrec.failed⟩
  · rcases (hlinked y).mp hl with hold | rfl
    · obtain ⟨htx, hp⟩ := hrec.linked y hy hold
      exact ⟨htx, fun p hprev => (hlinked p).mpr (.inl (hp p hprev))⟩
    · exact ⟨hrec.data y hy hdata, fun p hprev => (hlinked p).mpr (.inl (hparent p hprev))⟩
  · have hyb : y ≠ b := fun heq' => hnot ((hlinked y).mpr (.inr heq'))
    show update s.nSequenceId b _ y = 0
    rw [update_of_ne hyb]
    exact hrec.sequence y hy fun hold => hnot ((hlinked y).mpr (.inl hold))

/-- A child of the linked block is linked already, or listed under it. -/
theorem Linking.child (hy : y ∈ s.mapBlockIndex) (hprev : s.pprev y = some b) (htx : s.nTx y ≠ 0) :
    s.Linked y ∨ y ∈ queue ++ s.unlinkedRange b := by
  obtain ⟨hbm, hdata, -⟩ := h.head
  by_cases hlinked : s.Linked y
  · exact .inl hlinked
  · rcases h.unlinked.waits y hy htx hlinked with ⟨p, hp⟩ | hq | ⟨p, hp, -, hzero⟩
    · have hpb := (h.kept.waiting.entry _ hp).2.1
      rw [hprev] at hpb
      obtain rfl := Option.some.inj hpb
      exact .inr (mem_append_right _ (mem_unlinkedRange.mpr hp))
    · rcases mem_cons.mp hq with rfl | hin
      · have := h.kept.wf.rooted.height_parent hy hprev
        omega
      · exact .inr (mem_append_left _ hin)
    · rw [hprev] at hp
      obtain rfl := Option.some.inj hp
      exact absurd hzero (h.kept.records.data b hbm hdata)

theorem Linking.waiting : (s.linkStep b).Waiting (s.linkStep b).mapBlocksUnlinked t
    (queue ++ s.unlinkedRange b) := by
  have hwait := h.kept.waiting
  obtain ⟨candidates, heq, -⟩ := linkStep_eq s b
  have hlinked := fun y => h.linked_iff (y := y)
  rw [heq] at hlinked ⊢
  have hin : ∀ e, e ∈ s.mapBlocksUnlinked.filter (·.1 ≠ b) → e ∈ s.mapBlocksUnlinked ∧ e.1 ≠ b :=
    fun e he => ⟨mem_of_mem_filter he, of_decide_eq_true (mem_filter.mp he).2⟩
  refine ⟨fun e he => hwait.entry e (hin e he).1, fun e he => hwait.off e (hin e he).1, fun e he => ?_,
    fun y hy htx hparent => ?_⟩
  · obtain ⟨hmem, hne⟩ := hin e he
    exact (hwait.cause e hmem).imp_right fun hl =>
      or_assoc.mp ((or_assoc.mpr hl).imp_left (listed_filter hne))
  · by_cases hyb : y = b
    · exact .inl ((hlinked y).mpr (.inr hyb))
    · by_cases hprev : s.pprev y = some b
      · exact (h.child hy hprev htx).imp_left fun hl => (hlinked y).mpr (.inl hl)
      · -- the parent has been linked before
        have hold : ∀ p, s.pprev y = some p → s.Linked p := fun p hp =>
          ((hlinked p).mp (hparent p hp)).resolve_right fun heq' => hprev (heq' ▸ hp)
        rcases hwait.links y hy htx hold with hl | hq
        · exact .inl ((hlinked y).mpr (.inl hl))
        · exact .inr (mem_append_left _ ((mem_cons.mp hq).resolve_left hyb))

theorem Linking.candidates :
    (s.linkStep b).Candidates v (s.linkStep b).setBlockIndexCandidates (s.linkStep b).mapBlocksUnlinked
      t t (queue ++ s.unlinkedRange b) := by
  have hcand := h.kept.candidates
  obtain ⟨candidates, heq, hmem⟩ := linkStep_eq s b
  have hlinked := fun y => h.linked_iff (y := y)
  have hkey := fun y (hne : y ≠ b) => linkStep_workKey (s := s) hne
  have hworse : (s.linkStep b).notWorseThanTip b = true ↔
      (s.linkStep b).workKey t ≤ (s.linkStep b).workKey b := by
    have htip : (s.linkStep b).tip = some t := by
      rw [heq]
      exact h.kept.active.tip_eq h.kept.wf
    unfold notWorseThanTip
    rw [htip, Option.elim_some, Bool.not_eq_true', worse_eq_false_iff]
  rw [heq] at hlinked hkey hworse hmem ⊢
  refine ⟨fun c hc => ?_, (hmem t).mpr (.inl hcand.top_mem), fun a ha hoff => absurd ha hoff,
    fun y hy hl hd hinv hle => ?_⟩
  · rw [hlinked c]
    rcases (hmem c).mp hc with hold | ⟨rfl, hnot⟩
    · obtain ⟨hcm, hcl, hle⟩ := hcand.mem c hold
      have hcb : c ≠ b := fun heq' => h.queued.disjoint b mem_cons_self (heq' ▸ hold)
      rw [hkey c hcb, hkey t h.ne_tip.symm]
      exact ⟨hcm, .inl hcl, hle⟩
    · exact ⟨h.head.1, .inr rfl, hworse.mp hnot⟩
  · by_cases hyb : y = b
    · subst hyb
      exact .inl ((hmem y).mpr (.inr ⟨rfl, hworse.mpr hle⟩))
    · rw [hkey y hyb, hkey t h.ne_tip.symm] at hle
      exact (hcand.complete y hy (((hlinked y).mp hl).resolve_right hyb) hd hinv hle).imp
        (fun hc => (hmem y).mpr (.inl hc)) (listed_filter hyb)

theorem Linking.queued_step : Queued (s.linkStep b) (queue ++ s.unlinkedRange b) order := by
  obtain ⟨candidates, heq, hmem⟩ := linkStep_eq s b
  obtain ⟨hbm, hdata, -⟩ := h.head
  obtain ⟨hmod, -⟩ := h.count
  have hlinked := fun y => h.linked_iff (y := y)
  have hnodup := nodup_cons.mp h.queued.nodup
  have hset : (s.linkStep b).setBlockIndexCandidates = candidates := by rw [heq]
  -- the blocks that move up are children of `b`
  have hrange : ∀ y ∈ s.unlinkedRange b, y ∈ s.mapBlockIndex ∧ s.HasData y ∧ s.pprev y = some b := by
    intro y hy
    obtain ⟨hym, hprev, hd⟩ := h.kept.waiting.entry _ (mem_unlinkedRange.mp hy)
    exact ⟨hym, hd, hprev⟩
  refine ⟨fun y hy => ?_, fun y hy => ?_, hnodup.2, fun y hy hin => ?_⟩
  · rw [heq] at hlinked ⊢
    rcases mem_append.mp hy with hq | hr
    · obtain ⟨hym, hd, hparent⟩ := h.queued.mem y (mem_cons_of_mem _ hq)
      exact ⟨hym, hd, fun p hp => (hlinked p).mpr (.inl (hparent p hp))⟩
    · obtain ⟨hym, hd, hprev⟩ := hrange y hr
      refine ⟨hym, hd, fun p hp => (hlinked p).mpr (.inr ?_)⟩
      exact Option.some.inj (hp.symm.trans hprev)
  · have hb := h.queued.fits b mem_cons_self
    rw [heq]
    show (s.pprev y).elim 0 (update s.nChainTx b _) + (order.map s.nTx).sum < 2 ^ 32
    rw [map_cons, sum_cons] at hb
    by_cases hprev : s.pprev y = some b
    · rw [hprev, Option.elim_some, update_self, hmod]
      omega
    · have hq : y ∈ queue := (mem_append.mp hy).resolve_right fun hr => hprev (hrange y hr).2.2
      have hold := h.queued.fits y (mem_cons_of_mem _ hq)
      rw [map_cons, sum_cons] at hold
      have hsame : (s.pprev y).elim 0 (update s.nChainTx b
          (((s.pprev b).elim 0 s.nChainTx + s.nTx b) % 2 ^ 32)) = (s.pprev y).elim 0 s.nChainTx := by
        cases hp : s.pprev y with
        | none => rfl
        | some p =>
          have hpb : p ≠ b := fun heq' => hprev (heq' ▸ hp)
          rw [Option.elim_some, Option.elim_some, update_of_ne hpb]
      omega
  · rw [hset, hmem y] at hin
    rcases hin with hold | ⟨rfl, -⟩
    · exact h.queued.disjoint y (mem_cons_of_mem _ hy) hold
    · exact hnodup.1 hy

theorem Linking.unlinked_step :
    (s.linkStep b).Unlinked (s.linkStep b).mapBlocksUnlinked (queue ++ s.unlinkedRange b) := by
  obtain ⟨candidates, heq, -⟩ := linkStep_eq s b
  have hlinked := fun y => h.linked_iff (y := y)
  rw [heq] at hlinked ⊢
  refine ⟨fun y hnot => ?_, fun y hy htx hnot => ?_⟩
  · have hsub : ((s.mapBlocksUnlinked.filter (·.1 ≠ b)).map Prod.snd).Sublist
        (s.mapBlocksUnlinked.map Prod.snd) := filter_sublist.map _
    exact (hsub.count_le y).trans (h.unlinked.once y fun hl => hnot ((hlinked y).mpr (.inl hl)))
  · have hyb : y ≠ b := fun heq' => hnot ((hlinked y).mpr (.inr heq'))
    have hwaits := h.unlinked.waits y hy htx fun hl => hnot ((hlinked y).mpr (.inl hl))
    exact or_assoc.mp ((or_assoc.mpr hwaits).imp_left (listed_filter hyb))

theorem Linking.step : Linking v (s.linkStep b) t (queue ++ s.unlinkedRange b) order := by
  refine ⟨⟨?_, h.records, ?_, h.waiting, ?_, ?_, h.linked_iff.mpr (.inl h.kept.linked), h.candidates,
    le_rfl⟩, h.unlinked_step, h.queued_step⟩
  all_goals
    obtain ⟨candidates, heq, -⟩ := linkStep_eq s b
    rw [heq]
  · exact h.kept.wf
  · exact h.kept.unpruned
  · exact ⟨h.kept.active.mem, h.kept.active.vChain_eq⟩
  · exact fun a ha => ⟨(h.kept.connected a ha).not_failed, (h.kept.connected a ha).scripts,
      (h.kept.connected a ha).verdict⟩

end

/-- The loop links all of them. -/
theorem Linking.run : ∀ n (s : BlockTree ι) (queue : List ι),
    Linking v s t queue (linkOrder n s.mapBlocksUnlinked queue) →
    s.mapBlocksUnlinked.length + queue.length ≤ n → (linkQueue n queue s).Sound v t := by
  intro n
  induction n with
  | zero =>
    intro s queue h hlen
    obtain rfl : queue = [] := length_eq_zero_iff.mp (by omega)
    exact ⟨h.kept, h.unlinked⟩
  | succ n ih =>
    intro s queue h hlen
    cases queue with
    | nil => exact ⟨h.kept, h.unlinked⟩
    | cons b queue =>
      obtain ⟨candidates, heq, -⟩ := linkStep_eq s b
      have hlist :
        (s.linkStep b).mapBlocksUnlinked = s.mapBlocksUnlinked.filter (·.1 ≠ b) := by rw [heq]
      have hstep := h.step
      refine ih (s.linkStep b) (queue ++ s.unlinkedRange b) ?_ ?_
      · rw [hlist]
        exact hstep
      · -- every entry that leaves the list goes into the queue
        have hsplit := length_eq_length_filter_add (l := s.mapBlocksUnlinked) fun e => decide (e.1 = b)
        have hneg : (s.mapBlocksUnlinked.filter fun e => !decide (e.1 = b)) =
            s.mapBlocksUnlinked.filter (·.1 ≠ b) :=
          filter_congr fun e _ => (decide_not).symm
        rw [hneg] at hsplit
        rw [hlist, length_append, unlinkedRange, length_map]
        rw [length_cons] at hlen
        omega

/-! ### The order of linking -/

/-- A block is linked as often as it is in the queue or listed. -/
theorem count_linkOrder (y : ι) : ∀ n (unlinked : List (ι × ι)) (queue : List ι),
    (linkOrder n unlinked queue).count y ≤ queue.count y + (unlinked.map Prod.snd).count y := by
  intro n
  induction n with
  | zero =>
    intro unlinked queue
    exact Nat.zero_le _
  | succ n ih =>
    intro unlinked queue
    cases queue with
    | nil => exact Nat.zero_le _
    | cons b queue =>
      have hrest := ih (unlinked.filter (·.1 ≠ b)) (queue ++ (unlinked.filter (·.1 = b)).map Prod.snd)
      have hperm : ((unlinked.filter (·.1 = b)).map Prod.snd ++
          (unlinked.filter (·.1 ≠ b)).map Prod.snd).Perm (unlinked.map Prod.snd) := by
        have hneg : (unlinked.filter fun e => !decide (e.1 = b)) = unlinked.filter (·.1 ≠ b) :=
          filter_congr fun e _ => (decide_not).symm
        rw [← map_append, ← hneg]
        exact (filter_append_perm _ _).map _
      have hcount := hperm.count_eq y
      rw [count_append] at hrest hcount
      rw [linkOrder, count_cons, count_cons]
      omega

/-- Blocks that wait for an unlinked one are not linked themselves. -/
theorem Sound.not_linked_linkOrder (h : s.Sound v t) : ∀ n (unlinked : List (ι × ι)) (queue : List ι),
    unlinked ⊆ s.mapBlocksUnlinked → (∀ b ∈ queue, ¬ s.Linked b) →
    ∀ b ∈ linkOrder n unlinked queue, ¬ s.Linked b := by
  intro n
  induction n with
  | zero => exact fun _ _ _ _ b hb => absurd hb not_mem_nil
  | succ n ih =>
    intro unlinked queue hsub hqueue
    cases queue with
    | nil => exact fun b hb => absurd hb not_mem_nil
    | cons c queue =>
      rw [linkOrder, forall_mem_cons]
      have hc := hqueue c mem_cons_self
      refine ⟨hc, ih _ _ (fun e he => hsub (mem_of_mem_filter he)) fun b hb => ?_⟩
      rcases mem_append.mp hb with hq | hr
      · exact hqueue b (mem_cons_of_mem _ hq)
      · obtain ⟨e, he, rfl⟩ := mem_map.mp hr
        obtain ⟨hmem, heq⟩ := mem_filter.mp he
        obtain ⟨hem, hprev, -⟩ := h.kept.waiting.entry e (hsub hmem)
        exact fun hl => hc (of_decide_eq_true heq ▸ (h.kept.records.linked _ hem hl).2 _ hprev)

/-! ### `ReceivedBlockTransactions` -/

/-- The blocks that the data of `x` would link, from `x` on. -/
def linkedBy (s : BlockTree ι) (x : ι) : List ι :=
  linkOrder (s.mapBlocksUnlinked.length + 1) s.mapBlocksUnlinked [x]

/-- What the data of a block has to meet for the bookkeeping to be kept. -/
structure Receivable (s : BlockTree ι) (x : ι) (nVtx : Nat) : Prop where
  mem : x ∈ s.mapBlockIndex
  not_data : ¬ s.HasData x
  not_failed : ¬ s.Failed x
  pos : 0 < nVtx
  /-- A failed parent has no data that still waits to be linked. -/
  parent : ∀ p, s.pprev x = some p → s.Failed p → s.nTx p ≠ 0 → s.Linked p
  /-- The counts of transactions do not overflow. -/
  fits : (s.pprev x).elim 0 s.nChainTx + nVtx + ((s.linkedBy x).tail.map s.nTx).sum < 2 ^ 32
  /-- Data that arrives again moves no block within `setBlockIndexCandidates`. -/
  relinks : s.nTx x ≠ 0 → (s.linkedBy x).Nodup ∧ ∀ b ∈ s.linkedBy x, b ∉ s.setBlockIndexCandidates

section

variable {x : ι} {nVtx file : Nat} (h : s.Sound v t) (hr : s.Receivable x nVtx)

theorem linkedBy_eq_cons (s : BlockTree ι) (x : ι) : s.linkedBy x = x :: (s.linkedBy x).tail := rfl

include hr in
theorem Receivable.lt : nVtx < 2 ^ 32 := by
  have := hr.fits
  omega

include h hr

/-- A block without data is not listed. -/
theorem Receivable.count_eq_zero : (s.mapBlocksUnlinked.map Prod.snd).count x = 0 := by
  refine List.count_eq_zero.mpr fun hmem => ?_
  obtain ⟨e, he, rfl⟩ := mem_map.mp hmem
  exact hr.not_data (h.kept.waiting.entry e he).2.2

/-- The data of a new block moves none either. -/
theorem Receivable.relinks_of_sound :
    (s.linkedBy x).Nodup ∧ ∀ b ∈ s.linkedBy x, b ∉ s.setBlockIndexCandidates := by
  by_cases htx : s.nTx x = 0
  · have hx : ¬ s.Linked x := fun hl => (h.kept.records.linked x hr.mem hl).1 htx
    have hnot := h.not_linked_linkOrder (s.mapBlocksUnlinked.length + 1) s.mapBlocksUnlinked [x]
      (fun _ he => he) fun b hb => mem_singleton.mp hb ▸ hx
    refine ⟨nodup_iff_count_le_one.mpr fun y => ?_, fun b hb hc =>
      hnot b hb (h.kept.candidates.mem b hc).2.1⟩
    have hcount := count_linkOrder y (s.mapBlocksUnlinked.length + 1) s.mapBlocksUnlinked [x]
    by_cases hin : y ∈ s.linkedBy x
    · have honce := h.unlinked.once y (hnot y hin)
      by_cases hyx : y = x
      · rw [hyx, count_singleton_self, hr.count_eq_zero h] at hcount
        exact hyx ▸ hcount
      · rw [count_singleton, if_neg (by simpa using Ne.symm hyx)] at hcount
        exact hcount.trans (by omega)
    · exact (List.count_eq_zero.mpr hin).le.trans (Nat.zero_le 1)
  · exact hr.relinks htx

/-- With its parent linked, the block is the first of the queue. -/
theorem Receivable.linking (hparent : ∀ p, s.pprev x = some p → s.Linked p) :
    Linking v (s.refresh x nVtx file) t [x] (s.linkedBy x) := by
  obtain ⟨hnodup, hdisjoint⟩ := hr.relinks_of_sound h
  refine ⟨refresh_kept h hr.mem hr.not_failed hr.pos hr.lt, refresh_unlinked h hr.not_failed,
    ⟨fun b hb => ?_, fun b hb => ?_, hnodup, hdisjoint⟩⟩
  · obtain rfl := mem_singleton.mp hb
    exact ⟨hr.mem, (refresh_data b).mpr (.inr rfl), hparent⟩
  · obtain rfl := mem_singleton.mp hb
    have hfits := hr.fits
    rw [linkedBy_eq_cons] at hnodup ⊢
    have hrest :
      (s.linkedBy b).tail.map (s.refresh b nVtx file).nTx = (s.linkedBy b).tail.map s.nTx := by
      refine map_congr_left fun y hy => (refresh_of_ne fun heq => ?_).2
      exact (nodup_cons.mp hnodup).1 (heq ▸ hy)
    have hself : (s.refresh b nVtx file).nTx b = nVtx := by
      show update s.nTx b (nVtx % 2 ^ 32) b = nVtx
      rw [update_self, Nat.mod_eq_of_lt hr.lt]
    rw [map_cons, sum_cons, hrest, hself]
    show (s.pprev b).elim 0 s.nChainTx + _ < _
    omega

omit hr in
theorem ne_parent {p : ι} (hx : x ∈ s.mapBlockIndex) (hp : s.pprev x = some p) : p ≠ x := by
  rintro rfl
  have := h.kept.wf.rooted.height_parent hx hp
  omega

omit hr in
/-- The loop overwrites the count that has been reset. -/
theorem linkQueue_receiveData (hx : x ∈ s.mapBlockIndex) (n : Nat) :
    linkQueue (n + 1) [x] (s.receiveData x nVtx file) =
      linkQueue (n + 1) [x] (s.refresh x nVtx file) := by
  have hparent : (s.pprev x).elim 0 (update s.nChainTx x 0) = (s.pprev x).elim 0 s.nChainTx := by
    cases hp : s.pprev x with
    | none => rfl
    | some p =>
      rw [Option.elim_some, Option.elim_some, update_of_ne (ne_parent h hx hp)]
  have hlink : (s.receiveData x nVtx file).linkBlock x = (s.refresh x nVtx file).linkBlock x := by
    unfold linkBlock refresh receiveData
    rw [hparent, update_idem]
  unfold linkQueue
  rw [hlink]
  rfl

omit h hr in
/-- A block in the queue that cannot be linked yet leaves it. -/
theorem Sound.of_queue {p : ι} (hkept : s.Kept v t t [x]) (hwait : s.Unlinked s.mapBlocksUnlinked [x])
    (hp : s.pprev x = some p) (hlinked : ¬ s.Linked p)
    (hleft : BlockIndex.Listed s.mapBlocksUnlinked x ∨ s.Orphaned x) : s.Sound v t := by
  have hleave : ∀ {y}, BlockIndex.Listed s.mapBlocksUnlinked y ∨ y ∈ [x] ∨ s.Orphaned y →
      BlockIndex.Listed s.mapBlocksUnlinked y ∨ y ∈ ([] : List ι) ∨ s.Orphaned y := by
    rintro y (hl | hq | ho)
    · exact .inl hl
    · exact mem_singleton.mp hq ▸ hleft.imp_right .inr
    · exact .inr (.inr ho)
  refine ⟨{ hkept with
    waiting := { hkept.waiting with
      cause := fun e he => (hkept.waiting.cause e he).imp_right hleave
      links := fun y hy htx hpar => (hkept.waiting.links y hy htx hpar).imp_right fun hin => ?_ }
    candidates := { hkept.candidates with complete := fun y hy hl hd hi hle =>
      (hkept.candidates.complete y hy hl hd hi hle).imp_right (Or.imp_right fun hin => ?_) } },
    ⟨hwait.once, fun y hy htx hnot => hleave (hwait.waits y hy htx hnot)⟩⟩
  · exact absurd (hpar p (mem_singleton.mp hin ▸ hp)) hlinked
  · exact absurd ((hkept.records.linked y hy hl).2 p (mem_singleton.mp hin ▸ hp)) hlinked

/-- A block whose parent is not linked waits for it, or does so in vain. -/
theorem Receivable.wait {p : ι} (hp : s.pprev x = some p) (hlinked : ¬ s.Linked p) :
    (if (s.nStatus p).isValid .tree then
      { s.refresh x nVtx file with mapBlocksUnlinked := s.mapBlocksUnlinked ++ [(p, x)] }
    else s.refresh x nVtx file).Sound v t := by
  have hkept : (s.refresh x nVtx file).Kept v t t [x] :=
    refresh_kept h hr.mem hr.not_failed hr.pos hr.lt
  have hwait : (s.refresh x nVtx file).Unlinked s.mapBlocksUnlinked [x] :=
    refresh_unlinked h hr.not_failed
  have hpm := h.kept.wf.rooted.mem_parent hr.mem hp
  split_ifs with hvalid
  · have hlisted : BlockIndex.Listed (s.mapBlocksUnlinked ++ [(p, x)]) x :=
      ⟨p, mem_append_right _ (mem_singleton_self _)⟩
    refine .of_queue (x := x)
      ⟨hkept.wf, hkept.records, hkept.unpruned, hkept.waiting.append fun e he => ?_,
      ⟨hkept.active.mem, hkept.active.vChain_eq⟩, hkept.connected, hkept.linked, ?_, le_rfl⟩
      ⟨fun y hnot => ?_, fun y hy htx hnot =>
        (hwait.waits y hy htx hnot).imp_left (.append · _)⟩ hp hlinked
      (.inl hlisted)
    · obtain rfl := mem_singleton.mp he
      refine ⟨⟨hr.mem, hp, (refresh_data x).mpr (.inr rfl)⟩, fun hanc =>
        ?_, or_iff_not_imp_left.mpr fun hd => ?_⟩
      · -- the active chain is linked
        exact hlinked (h.kept.records.linked_of_anc h.kept.wf h.kept.active.mem h.kept.linked hanc)
      · -- the parent waits as well
        have htx := hkept.records.data p hpm (not_not.mp hd)
        exact (hwait.waits p hpm htx hlinked).imp_left (.append · _)
    · exact { hkept.candidates with complete := fun y hy hl hd hi hle =>
        (hkept.candidates.complete y hy hl hd hi hle).imp_right (Or.imp_left (.append · _)) }
    · show ((s.mapBlocksUnlinked ++ [(p, x)]).map Prod.snd).count y ≤ 1
      have honce := h.unlinked.once y hnot
      rw [map_append, count_append, map_singleton, count_singleton]
      split_ifs with hyx
      · obtain rfl : x = y := by simpa using hyx
        rw [hr.count_eq_zero h]
      · exact honce
  · -- the parent has failed without data
    have hpf : s.Failed p := by
      by_contra hnot
      refine hvalid ?_
      unfold BlockStatus.isValid
      rw [Bool.and_eq_true, Bool.not_eq_true', decide_eq_true_eq]
      exact ⟨Bool.not_eq_true _ ▸ hnot, h.kept.records.tree p hpm⟩
    have htx : s.nTx p = 0 := by
      by_contra hne
      exact hlinked (hr.parent p hp hpf hne)
    exact .of_queue hkept hwait hp hlinked
      (.inr (refresh_orphaned hr.not_failed ⟨p, hp, hpf, htx⟩))

/-- The data of a block arrives. -/
theorem Sound.receivedBlockTransactions : (s.receivedBlockTransactions x nVtx file).Sound v t := by
  have hlink : (∀ p, s.pprev x = some p → s.Linked p) →
      (linkQueue (s.mapBlocksUnlinked.length + 1) [x] (s.receiveData x nVtx file)).Sound v t := by
    intro hparent
    rw [linkQueue_receiveData h hr.mem]
    exact Linking.run _ _ _ (hr.linking h hparent) le_rfl
  unfold BlockTree.receivedBlockTransactions
  dsimp only
  cases hp : s.pprev x with
  | none =>
    have hprev : (s.receiveData x nVtx file).pprev x = none := hp
    rw [hprev]
    exact hlink fun p hp' => absurd (hp.symm.trans hp') nofun
  | some p =>
    have hprev : (s.receiveData x nVtx file).pprev x = some p := hp
    have hpx := ne_parent h hr.mem hp
    have hcount : (s.receiveData x nVtx file).nChainTx p = s.nChainTx p := update_of_ne hpx _ _
    have hstatus : (s.receiveData x nVtx file).nStatus p = s.nStatus p := update_of_ne hpx _ _
    rw [hprev]
    dsimp only
    rw [hcount, hstatus]
    by_cases hlinked : s.nChainTx p ≠ 0
    · rw [if_pos hlinked]
      exact hlink fun q hq => Option.some.inj (hp.symm.trans hq) ▸ hlinked
    · rw [if_neg hlinked]
      -- the block has not been linked either, so there is nothing to reset
      have hx : s.nChainTx x = 0 := not_not.mp fun hl =>
        hlinked ((h.kept.records.linked x hr.mem hl).2 p hp)
      have hsame : s.receiveData x nVtx file = s.refresh x nVtx file := by
        unfold refresh receiveData
        rw [← hx, update_eq_self]
      rw [hsame]
      exact hr.wait h hp hlinked

end

end BlockTree

end Chratos
