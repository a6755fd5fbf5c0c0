import Chratos.Properties.TreeBookkeeping

/-!
# Chratos — `ResetBlockFailureFlags`

The operator takes back an `invalidateblock`. The flags of the block and of everything above it go in
one loop over the index, those of its ancestors in a second one. Blocks beside this line keep theirs,
although the ancestor on account of which they were marked may be cleared; and only blocks that were
marked themselves become candidates again.
-/

namespace Chratos

open BlockStatus Function List

/-- `nStatus &= ~BLOCK_FAILED_MASK`. -/
def BlockStatus.clearFailed (st : BlockStatus) : BlockStatus :=
  { st with failedValid := false, failedChild := false }

@[simp]
theorem BlockStatus.clearFailed_failed (st : BlockStatus) : st.clearFailed.failed = false := rfl

@[simp]
theorem BlockStatus.clearFailed_clearFailed (st : BlockStatus) :
    st.clearFailed.clearFailed = st.clearFailed := rfl

theorem BlockStatus.clearFailed_of_not_failed {st : BlockStatus} (h : st.failed = false) :
    st.clearFailed = st := by
  obtain ⟨hv, hc⟩ := Bool.or_eq_false_iff.mp h
  cases st with
  | mk valid haveData haveUndo failedValid failedChild =>
    obtain rfl : failedValid = false := hv
    obtain rfl : failedChild = false := hc
    rfl

namespace BlockTree

variable {ι : Type} [LinearOrder ι]

/-! ## The call -/

/-- `value_comp()(chainActive.Tip(), b)`: strictly better than the tip. -/
def betterThanTip (s : BlockTree ι) (b : ι) : Bool :=
  s.tip.elim false fun t => s.worse t b

/-- One round of the first loop. -/
def resetDescendant (pindex : ι) (s : BlockTree ι) (it : ι) : BlockTree ι :=
  if (s.nStatus it).isValid .transactions = false ∧
    s.getAncestor it (s.nHeight pindex) = some pindex then
    let s := s.setStatus it clearFailed
    { s with
      setBlockIndexCandidates :=
        if (s.nStatus it).isValid .transactions ∧ s.nChainTx it ≠ 0 ∧ s.betterThanTip it
        then s.setBlockIndexCandidates.insert it else s.setBlockIndexCandidates
      pindexBestInvalid := if s.pindexBestInvalid = some it then none else s.pindexBestInvalid }
  else s

/-- One round of the second. -/
def resetAncestor (s : BlockTree ι) (pindex : ι) : BlockTree ι :=
  if (s.nStatus pindex).failed then s.setStatus pindex clearFailed else s

/-- `ResetBlockFailureFlags`. -/
def resetBlockFailureFlags (s : BlockTree ι) (pindex : ι) : BlockTree ι :=
  let s := s.mapBlockIndex.foldl (resetDescendant pindex) s
  (s.lineage pindex).foldl resetAncestor s

/-! ## What it does -/

/-- `s'` is `s` without the flags of some blocks and with some more candidates. -/
structure Reset (s s' : BlockTree ι) (cleared added : ι → Prop) : Prop where
  rest : s' = { s with
    nStatus := s'.nStatus
    setBlockIndexCandidates := s'.setBlockIndexCandidates
    pindexBestInvalid := s'.pindexBestInvalid }
  clear : ∀ x, cleared x → s'.nStatus x = (s.nStatus x).clearFailed
  same : ∀ x, ¬ cleared x → s'.nStatus x = s.nStatus x
  candidate : ∀ x, x ∈ s'.setBlockIndexCandidates ↔ x ∈ s.setBlockIndexCandidates ∨ added x

namespace Reset

variable {s s₁ s₂ : BlockTree ι} {c c' a a' : ι → Prop}

omit [LinearOrder ι] in
theorem refl (s : BlockTree ι) : Reset s s (fun _ => False) (fun _ => False) :=
  ⟨rfl, nofun, fun _ _ => rfl, fun _ => (or_false _).symm.to_iff⟩

omit [LinearOrder ι] in
theorem congr (h : Reset s s₁ c a) (hc : ∀ x, c x ↔ c' x) (ha : ∀ x, a x ↔ a' x) :
    Reset s s₁ c' a' where
  rest := h.rest
  clear := fun x hx => h.clear x ((hc x).mpr hx)
  same := fun x hx => h.same x fun hcx => hx ((hc x).mp hcx)
  candidate := fun x => (h.candidate x).trans (or_congr_right (ha x))

omit [LinearOrder ι] in
theorem trans (h : Reset s s₁ c a) (h' : Reset s₁ s₂ c' a') :
    Reset s s₂ (fun x => c x ∨ c' x) (fun x => a x ∨ a' x) := by
  refine ⟨?_, fun x hx => ?_, fun x hx => ?_, fun x => ?_⟩
  · rw [h'.rest, h.rest]
  · by_cases hc' : c' x
    · rw [h'.clear x hc']
      by_cases hc : c x
      · rw [h.clear x hc, clearFailed_clearFailed]
      · rw [h.same x hc]
    · rw [h'.same x hc', h.clear x (hx.resolve_right hc')]
  · obtain ⟨hc, hc'⟩ := not_or.mp hx
    rw [h'.same x hc', h.same x hc]
  · rw [h'.candidate x, h.candidate x, or_assoc]

end Reset

variable {s : BlockTree ι} {v : Validator ι} {b t : ι}

/-- What the first loop clears. -/
def Descends (s : BlockTree ι) (b x : ι) : Prop :=
  s.getAncestor x (s.nHeight b) = some b

/-- What it makes a candidate. -/
def Revived (s : BlockTree ι) (b x : ι) : Prop :=
  s.Descends b x ∧ s.Failed x ∧ .transactions ≤ (s.nStatus x).valid ∧ s.Linked x ∧
    s.betterThanTip x = true

theorem resetDescendant_reset (b : ι) (s : BlockTree ι) (it : ι) :
    Reset s (resetDescendant b s it) (fun x => x = it ∧ s.Descends b x)
      (fun x => x = it ∧ s.Revived b x) := by
  unfold resetDescendant
  split_ifs with hround
  · obtain ⟨hinvalid, hdesc⟩ := hround
    have hclear : (s.setStatus it clearFailed).nStatus it = (s.nStatus it).clearFailed :=
      update_self _ _ _
    dsimp only
    rw [hclear]
    -- a block that reaches `BLOCK_VALID_TRANSACTIONS` only without its flags was marked
    have hrevived : ((s.nStatus it).clearFailed.isValid .transactions = true ∧
        (s.setStatus it clearFailed).nChainTx it ≠ 0 ∧
        (s.setStatus it clearFailed).betterThanTip it = true) ↔ s.Revived b it := by
      have hlevel : (s.nStatus it).clearFailed.isValid .transactions = true ↔
          s.Failed it ∧ .transactions ≤ (s.nStatus it).valid := by
        unfold isValid at hinvalid ⊢
        rw [Bool.and_eq_true, decide_eq_true_eq, clearFailed_failed]
        rw [Bool.and_eq_false_iff, Bool.not_eq_false', decide_eq_false_iff_not] at hinvalid
        constructor
        · rintro ⟨-, hle⟩
          exact ⟨hinvalid.resolve_right (not_not.mpr hle), hle⟩
        · rintro ⟨-, hle⟩
          exact ⟨rfl, hle⟩
      rw [hlevel, and_assoc]
      exact ⟨fun h => ⟨hdesc, h⟩, fun h => h.2⟩
    refine ⟨rfl, ?_, fun x hx => update_of_ne (fun heq => hx ⟨heq, heq ▸ hdesc⟩) _ _,
      fun x => ?_⟩
    · rintro x ⟨rfl, -⟩
      exact update_self _ _ _
    · show x ∈ (if _ then s.setBlockIndexCandidates.insert it else s.setBlockIndexCandidates) ↔ _
      split_ifs with hadd
      · rw [hrevived] at hadd
        exact mem_insert_iff.trans (or_comm.trans (or_congr_right
          ⟨fun heq => ⟨heq, heq ▸ hadd⟩, fun h => h.1⟩))
      · rw [hrevived] at hadd
        exact (or_iff_left fun (h : x = it ∧ s.Revived b x) => hadd (h.1 ▸ h.2)).symm
  · -- a descendant that is valid has no flags
    refine ⟨rfl, ?_, fun _ _ => rfl, fun x => (or_iff_left ?_).symm⟩
    · rintro x ⟨rfl, hdesc⟩
      have hvalid : (s.nStatus x).isValid .transactions = true :=
        Bool.not_eq_false _ ▸ fun hf => hround ⟨hf, hdesc⟩
      have hnot := (Bool.and_eq_true_iff.mp hvalid).1
      exact (clearFailed_of_not_failed (Bool.not_eq_true' _ ▸ hnot)).symm
    · rintro ⟨rfl, hdesc, hfailed, -⟩
      refine hround ⟨?_, hdesc⟩
      unfold isValid
      rw [show (s.nStatus x).failed = true from hfailed]
      rfl

theorem resetDescendants_reset (b : ι) : ∀ (l : List ι) (s : BlockTree ι), l.Nodup →
    Reset s (l.foldl (resetDescendant b) s) (fun x => x ∈ l ∧ s.Descends b x)
      (fun x => x ∈ l ∧ s.Revived b x)
  | [], s, _ => (Reset.refl s).congr (fun _ => by simp) (fun _ => by simp)
  | it :: l, s, hnodup => by
    obtain ⟨hit, hl⟩ := List.nodup_cons.mp hnodup
    have hstep := resetDescendant_reset b s it
    rw [List.foldl_cons]
    generalize resetDescendant b s it = s₁ at hstep ⊢
    have hrest := resetDescendants_reset b l s₁ hl
    -- the rounds that follow read nothing of what this one has written
    have hdesc : ∀ x, s₁.Descends b x ↔ s.Descends b x := fun x => by
      unfold Descends
      rw [hstep.rest]
    have hrevived : ∀ x ∈ l, s₁.Revived b x ↔ s.Revived b x := fun x hx => by
      have hstatus : s₁.nStatus x = s.nStatus x := hstep.same x fun h => hit (h.1 ▸ hx)
      have hlinked : s₁.Linked x ↔ s.Linked x := by
        unfold BlockIndex.Linked
        rw [hstep.rest]
      have hbetter : s₁.betterThanTip x = s.betterThanTip x := by
        rw [hstep.rest]
        rfl
      unfold Revived BlockIndex.Failed
      rw [hdesc, hstatus, hlinked, hbetter]
    refine (hstep.trans hrest).congr (fun x => ?_) fun x => ?_
    · rw [hdesc, ← or_and_right, mem_cons]
    · rw [mem_cons, or_and_right]
      exact or_congr_right (and_congr_right fun hx => hrevived x hx)

omit v b t in
theorem resetAncestors_reset : ∀ (l : List ι) (s : BlockTree ι),
    Reset s (l.foldl resetAncestor s) (fun x => x ∈ l) (fun _ => False)
  | [], s => (Reset.refl s).congr (fun _ => by simp) fun _ => Iff.rfl
  | a :: l, s => by
    have hstep : Reset s (resetAncestor s a) (fun x => x = a) (fun _ => False) := by
      unfold resetAncestor
      split_ifs with hfailed
      · refine ⟨rfl, ?_, fun x hx => update_of_ne hx _ _, fun _ => (or_iff_left id).symm⟩
        rintro x rfl
        exact update_self _ _ _
      · refine ⟨rfl, ?_, fun _ _ => rfl, fun _ => (or_iff_left id).symm⟩
        rintro x rfl
        exact (clearFailed_of_not_failed (Bool.not_eq_true _ ▸ hfailed)).symm
    rw [foldl_cons]
    exact (hstep.trans (resetAncestors_reset l _)).congr (fun x => mem_cons.symm)
      fun _ => or_self_iff

/-- The flags go on the way from genesis to `b` and above `b`; what was marked above `b` becomes a
candidate, if it is good enough. -/
theorem resetBlockFailureFlags_spec {genesis : ι} (hwf : s.WellFormed genesis)
    (hb : b ∈ s.mapBlockIndex) :
    Reset s (s.resetBlockFailureFlags b) (fun x => s.Anc x b ∨ x ∈ s.mapBlockIndex ∧ s.Anc b x)
      (fun x => x ∈ s.mapBlockIndex ∧ s.Revived b x) := by
  unfold resetBlockFailureFlags
  have hfirst := resetDescendants_reset b s.mapBlockIndex s hwf.nodup
  dsimp only
  generalize s.mapBlockIndex.foldl (resetDescendant b) s = s₁ at hfirst ⊢
  have hlineage : s₁.lineage b = s.lineage b := by
    rw [hfirst.rest]
  rw [hlineage]
  refine (hfirst.trans (resetAncestors_reset (s.lineage b) s₁)).congr (fun x => ?_) fun x =>
    or_iff_left id
  rw [or_comm]
  exact or_congr (hwf.rooted.mem_lineage hb) (and_congr_right hwf.getAncestor_eq_some_iff)

/-! ## Whether the tree is consistent -/

/-- Marks have a cause, and what could be connected is a candidate. -/
structure Consistent (s : BlockTree ι) : Prop where
  failed : ∀ x ∈ s.mapBlockIndex, s.Failed x → s.Invalid x
  candidate : ∀ x ∈ s.mapBlockIndex, (∀ a, s.Anc a x → ¬ s.Failed a ∧ s.HasData a) →
    s.betterThanTip x = true → x ∈ s.setBlockIndexCandidates

/-- On the way from genesis to `b`, or above `b`. -/
def OnLine (s : HeaderTree ι) (b x : ι) : Prop :=
  s.Anc x b ∨ s.Anc b x

/-- What has to be there before: blocks beside the line of `b` are marked on account of blocks beside
it, and what the call frees without clearing its own flags is a candidate already. -/
structure Resettable (s : BlockTree ι) (b : ι) : Prop where
  failed : ∀ x ∈ s.mapBlockIndex, s.Failed x → ¬ OnLine s.toHeaderTree b x →
    ∃ a, s.Anc a x ∧ ¬ s.Anc a b ∧ (s.nStatus a).failedValid = true
  candidate : ∀ x ∈ s.mapBlockIndex, s.Invalid x →
    (∀ a, s.Anc a x → s.HasData a ∧ (s.Failed a → OnLine s.toHeaderTree b a)) →
    s.betterThanTip x = true → ¬ (s.Anc b x ∧ s.Failed x) → x ∈ s.setBlockIndexCandidates

/-- A block without failed ancestors that has all the data and is better than the tip is a candidate,
if the assertions of `CheckBlockIndex` hold. -/
theorem mem_candidates_of_checkBlockIndex (hwf : s.WellFormed v.hashGenesisBlock) (hactive : s.Active t)
    (hcheck : s.checkBlockIndex v = true) {x : ι} (hx : x ∈ s.mapBlockIndex) (hinv : ¬ s.Invalid x)
    (hdata : ∀ a, s.Anc a x → s.HasData a) (hbetter : s.betterThanTip x = true) :
    x ∈ s.setBlockIndexCandidates := by
  have hpass := (checkBlockIndex_iff hwf hactive).mp hcheck
  have hcand := (hpass x hx).candidate
  unfold CheckCandidate at hcand
  have hgood : s.notWorseThanTip x = true := by
    unfold betterThanTip at hbetter
    rw [hactive.tip_eq hwf, Option.elim_some, BlockIndex.worse_iff] at hbetter
    exact (hactive.notWorseThanTip_iff hwf).mpr hbetter.le
  have hprocessed : s.firsts x .neverProcessed = none := by
    refine (firsts_eq_none hwf hx).mpr fun a ha => decide_eq_false ?_
    exact Grounded.data_nTx hpass (hwf.rooted.mem_of_anc hx ha) (hdata a ha)
  rw [if_pos ⟨hgood, hprocessed⟩] at hcand
  exact hcand ((not_invalid_iff hwf hx).mpr hinv) (.inl ((not_missing_iff hwf hx).mpr hdata))

/-- `ResetBlockFailureFlags` leaves a tree that passes `CheckBlockIndex` consistent exactly when it is
resettable. -/
theorem resetBlockFailureFlags_consistent_iff (hwf : s.WellFormed v.hashGenesisBlock)
    (hactive : s.Active t) (hcheck : s.checkBlockIndex v = true) (hb : b ∈ s.mapBlockIndex) :
    (s.resetBlockFailureFlags b).Consistent ↔ s.Resettable b := by
  have hreset := resetBlockFailureFlags_spec hwf hb
  generalize s.resetBlockFailureFlags b = s' at hreset ⊢
  have hmap : s'.mapBlockIndex = s.mapBlockIndex := by rw [hreset.rest]
  have hanc : ∀ a x, s'.Anc a x ↔ s.Anc a x := fun a x => by rw [hreset.rest]
  have hbetter : ∀ x, s'.betterThanTip x = s.betterThanTip x := fun x => by
    rw [hreset.rest]
    rfl
  have hclear : ∀ x ∈ s.mapBlockIndex, OnLine s.toHeaderTree b x →
      s'.nStatus x = (s.nStatus x).clearFailed := fun x hx hline =>
    hreset.clear x (hline.imp_right fun h => ⟨hx, h⟩)
  have hsame : ∀ x, ¬ OnLine s.toHeaderTree b x → s'.nStatus x = s.nStatus x := fun x hline =>
    hreset.same x fun h => hline (h.imp_right And.right)
  -- flags are left beside the line only
  have hfailed : ∀ x ∈ s.mapBlockIndex, s'.Failed x ↔ s.Failed x ∧ ¬ OnLine s.toHeaderTree b x := by
    intro x hx
    unfold BlockIndex.Failed
    by_cases hline : OnLine s.toHeaderTree b x
    · rw [hclear x hx hline, clearFailed_failed]
      exact iff_of_false Bool.false_ne_true fun h => h.2 hline
    · rw [hsame x hline]
      exact (and_iff_left hline).symm
  have hdata : ∀ x ∈ s.mapBlockIndex, s'.HasData x ↔ s.HasData x := by
    intro x hx
    unfold BlockIndex.HasData
    by_cases hline : OnLine s.toHeaderTree b x
    · rw [hclear x hx hline]
      rfl
    · rw [hsame x hline]
  have hinvalid : ∀ x ∈ s.mapBlockIndex, ¬ OnLine s.toHeaderTree b x →
      (s'.Invalid x ↔ ∃ a, s.Anc a x ∧ ¬ s.Anc a b ∧ (s.nStatus a).failedValid = true) := by
    intro x hx hline
    refine exists_congr fun a => ?_
    rw [hanc]
    refine and_congr_right fun hax => ?_
    have ham := hwf.rooted.mem_of_anc hx hax
    by_cases hab : s.Anc a b
    · rw [hclear a ham (.inl hab)]
      exact iff_of_false Bool.false_ne_true fun h => h.1 hab
    · -- an ancestor of a block beside the line is not above `b`
      rw [hsame a fun h => h.elim hab fun hba => hline (.inr (hba.trans hax))]
      exact (and_iff_right hab).symm
  have hpath : ∀ x ∈ s.mapBlockIndex, (∀ a, s'.Anc a x → ¬ s'.Failed a ∧ s'.HasData a) ↔
      ∀ a, s.Anc a x → s.HasData a ∧ (s.Failed a → OnLine s.toHeaderTree b a) := by
    intro x hx
    refine forall_congr' fun a => ?_
    rw [hanc]
    refine forall_congr' fun hax => ?_
    have ham := hwf.rooted.mem_of_anc hx hax
    rw [hfailed a ham, hdata a ham, not_and, not_not, and_comm]
  constructor
  · intro hcons
    refine ⟨fun x hx hf hline => ?_, fun x hx _ hlines hbest hnot => ?_⟩
    · exact (hinvalid x hx hline).mp (hcons.failed x (hmap ▸ hx) ((hfailed x hx).mpr ⟨hf, hline⟩))
    · have hmem := hcons.candidate x (hmap ▸ hx) ((hpath x hx).mpr hlines) ((hbetter x).trans hbest)
      refine ((hreset.candidate x).mp hmem).resolve_right fun hrevived => hnot ?_
      exact ⟨(hwf.getAncestor_eq_some_iff hx).mp hrevived.2.1, hrevived.2.2.1⟩
  · intro hres
    refine ⟨fun x hx hf => ?_, fun x hx hlines hbest => (hreset.candidate x).mpr ?_⟩
    · rw [hmap] at hx
      obtain ⟨hf, hline⟩ := (hfailed x hx).mp hf
      exact (hinvalid x hx hline).mpr (hres.failed x hx hf hline)
    · rw [hmap] at hx
      rw [hbetter] at hbest
      have hlines' := (hpath x hx).mp hlines
      have hall : ∀ a, s.Anc a x → s.HasData a := fun a ha => (hlines' a ha).1
      by_cases hinv : s.Invalid x
      · by_cases habove : s.Anc b x ∧ s.Failed x
        · -- the first loop inserts a marked block whose data is there
          have hpass := (checkBlockIndex_iff hwf hactive).mp hcheck
          have htx : ∀ a, s.Anc a x → s.nTx a ≠ 0 := fun a ha =>
            Grounded.data_nTx hpass (hwf.rooted.mem_of_anc hx ha) (hall a ha)
          have hlinked : s.Linked x := fun hzero => by
            refine (hpass x hx).data.processed.mpr hzero ((firsts_eq_none hwf hx).mpr fun a ha => ?_)
            exact decide_eq_false (htx a ha)
          have hlevel := (hpass x hx).data.transactions.mpr (pos_of_ne_zero (htx x (.refl x)))
          exact .inr
            ⟨hx, (hwf.getAncestor_eq_some_iff hx).mpr habove.1, habove.2, hlevel, hlinked, hbest⟩
        · exact .inl (hres.candidate x hx hinv hlines' hbest habove)
      · exact .inl (mem_candidates_of_checkBlockIndex hwf hactive hcheck hx hinv hall hbest)

theorem resetBlockFailureFlags_consistent_iff_oneHeader :
    ∃ s : BlockTree Nat, ∃ t, s.WellFormed 0 ∧ s.Active t ∧ s.checkBlockIndex allValid = true ∧
      1 ∈ s.mapBlockIndex ∧ s.Failed 1 ∧
      ((s.resetBlockFailureFlags 1).Consistent ↔ s.Resettable 1) := by
  obtain ⟨t, hsound⟩ := reached_oneHeader.sound allValid_intact rfl
  -- the header is invalidated before it is connected
  have hmem : 1 ∈ (oneHeader.receivedBlockTransactions 1 1 0).mapBlockIndex := by decide +kernel
  have hend : ((oneHeader.receivedBlockTransactions 1 1 0).invalidateBlock 1).toOption.any
      (fun s => 1 ∈ s.mapBlockIndex ∧ s.Failed 1) = true := by decide +kernel
  rcases hsound.invalidateBlock hmem (by decide) with ⟨e, herr, -⟩ | ⟨s, t', hok, hsound'⟩
  · rw [herr] at hend
    cases hend
  · rw [hok] at hend
    obtain ⟨hmem', hfailed⟩ := of_decide_eq_true (p := 1 ∈ s.mapBlockIndex ∧ s.Failed 1) hend
    have hcheck := hsound'.kept.checkBlockIndex hsound'.unlinked
    exact ⟨s, t', hsound'.kept.wf, hsound'.kept.active, hcheck, hmem', hfailed,
      resetBlockFailureFlags_consistent_iff hsound'.kept.wf hsound'.kept.active hcheck hmem'⟩

/-! ## A mark without a cause -/

/-- Blocks 2 and 3 stand on 1. The node has connected 2 when 1 is invalidated. -/
def siblings : List (Call Nat) :=
  [.addToBlockIndex ⟨1, some 0, 0x207fffff⟩, .addToBlockIndex ⟨2, some 1, 0x207fffff⟩,
    .addToBlockIndex ⟨3, some 1, 0x207fffff⟩, .receivedBlockTransactions 1 1 0,
    .receivedBlockTransactions 2 1 0, .receivedBlockTransactions 3 1 0, .activateBestChain,
    .invalidateBlock 1]

/-- `FindMostWorkChain` marks 3, since it stands on 1. When 2 is reconsidered 1 and 2 are cleared, and
3 stays marked. -/
theorem resetBlockFailureFlags_sibling :
    ∃ s s' : BlockTree Nat, Reached allValid (fun _ _ => True) s ∧
      s.activateBestChain allValid = .ok s' ∧ s'.checkBlockIndex allValid = true ∧
      2 ∈ s'.mapBlockIndex ∧ 3 ∈ s'.mapBlockIndex ∧ (s'.resetBlockFailureFlags 2).Failed 3 ∧
      ∀ a ∈ (s'.resetBlockFailureFlags 2).lineage 3,
        ((s'.resetBlockFailureFlags 2).nStatus a).failedValid = false := by
  have hend : (outcome allValid 0x207fffff siblings).any (fun p =>
      p.2.checkBlockIndex allValid = true ∧ 2 ∈ p.2.mapBlockIndex ∧ 3 ∈ p.2.mapBlockIndex ∧
        (p.2.resetBlockFailureFlags 2).Failed 3 ∧
        ∀ a ∈ (p.2.resetBlockFailureFlags 2).lineage 3,
          ((p.2.resetBlockFailureFlags 2).nStatus a).failedValid = false) = true := by decide +kernel
  obtain ⟨s, s', hreached, hok, hP⟩ := exists_of_outcome hend
  exact ⟨s, s', hreached, hok, of_decide_eq_true hP⟩

end BlockTree

end Chratos
