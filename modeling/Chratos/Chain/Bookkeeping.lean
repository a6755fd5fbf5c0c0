import Chratos.Chain.Activate
import Chratos.Lib.Program
import Mathlib.Data.List.TakeWhile

/-!
# Chratos — what the bookkeeping of the block tree keeps

The facts on which the calls that touch the block index rely, and which each of them restores. They
come in four groups: what the fields of a block say about each other (`Records`), which blocks
`mapBlocksUnlinked` lists (`Waiting`), what has been connected (`Connected`) and which blocks
`setBlockIndexCandidates` holds (`Candidates`).

Two parameters make the groups hold in the middle of a call as well. `queue` holds the blocks that
`ReceivedBlockTransactions` has taken off `mapBlocksUnlinked` and not linked yet. `top` is the best
tip there has been since the call began: while `ActivateBestChain` tries a branch the tip may fall
below it, but `top` stays a candidate, every block on the way back to it can be connected again, and
the candidates are complete from `top` upwards.
-/

namespace Chratos

open List Function BlockStatus Option BlockIndex
open Lineage (anc_iff_of_parent anc_iff_of_none)
open Outcome (Ends)

/-! ## What is kept -/

namespace BlockIndex

variable {ι : Type} (s : BlockIndex ι)

def HasData (b : ι) : Prop :=
  (s.nStatus b).haveData = true

def Failed (b : ι) : Prop :=
  (s.nStatus b).failed = true

/-- The data of the block and of all its ancestors has arrived. -/
def Linked (b : ι) : Prop :=
  s.nChainTx b ≠ 0

instance (s : BlockIndex ι) (b : ι) : Decidable (s.HasData b) := inferInstanceAs (Decidable (_ = true))

instance (s : BlockIndex ι) (b : ι) : Decidable (s.Failed b) := inferInstanceAs (Decidable (_ = true))

instance (s : BlockIndex ι) (b : ι) : Decidable (s.Linked b) := inferInstanceAs (Decidable (_ ≠ 0))

/-- The block or one of its ancestors is `BLOCK_FAILED_VALID`. -/
def Invalid (b : ι) : Prop :=
  ∃ a, s.Anc a b ∧ (s.nStatus a).failedValid = true

/-- The parent has failed before its data arrived, and will not get it any more. -/
def Orphaned (b : ι) : Prop :=
  ∃ p, s.pprev b = some p ∧ s.Failed p ∧ s.nTx p = 0

/-- What the fields of a block say about each other. -/
structure Records (s : BlockIndex ι) (genesis : ι) : Prop where
  tree : ∀ b ∈ s.mapBlockIndex, .tree ≤ (s.nStatus b).valid
  transactions : ∀ b ∈ s.mapBlockIndex, .transactions ≤ (s.nStatus b).valid ↔ s.nTx b ≠ 0
  /-- Blocks are connected on top of connected ones. -/
  chain : ∀ b ∈ s.mapBlockIndex, ∀ p, s.pprev b = some p → p ≠ genesis →
    ∀ level, .chain ≤ level → level ≤ (s.nStatus b).valid → level ≤ (s.nStatus p).valid
  undo : ∀ b ∈ s.mapBlockIndex, (s.nStatus b).haveUndo = true → s.HasData b
  data : ∀ b ∈ s.mapBlockIndex, s.HasData b → s.nTx b ≠ 0
  linked : ∀ b ∈ s.mapBlockIndex, s.Linked b → s.nTx b ≠ 0 ∧ ∀ p, s.pprev b = some p → s.Linked p
  sequence : ∀ b ∈ s.mapBlockIndex, ¬ s.Linked b → s.nSequenceId b = 0
  failed : ∀ b ∈ s.mapBlockIndex, s.Failed b → s.Invalid b

/-- `mapBlocksUnlinked` lists the block. -/
def Listed (unlinked : List (ι × ι)) (b : ι) : Prop :=
  ∃ p, (p, b) ∈ unlinked

/-- Only blocks that wait for an ancestor's data are listed. -/
structure Waiting (s : BlockIndex ι) (unlinked : List (ι × ι)) (t : ι) (queue : List ι) : Prop where
  entry : ∀ e ∈ unlinked, e.2 ∈ s.mapBlockIndex ∧ s.pprev e.2 = some e.1 ∧ s.HasData e.2
  /-- The active chain does not pass through the block that is waited for. -/
  off : ∀ e ∈ unlinked, ¬ s.Anc e.1 t
  cause : ∀ e ∈ unlinked, ¬ s.HasData e.1 ∨ Listed unlinked e.1 ∨ e.1 ∈ queue ∨ s.Orphaned e.1
  links : ∀ b ∈ s.mapBlockIndex, s.nTx b ≠ 0 → (∀ p, s.pprev b = some p → s.Linked p) →
    s.Linked b ∨ b ∈ queue

/-- And those that wait for their first link are all listed, once. -/
structure Unlinked [DecidableEq ι] (s : BlockIndex ι) (unlinked : List (ι × ι)) (queue : List ι) :
    Prop where
  once : ∀ b, ¬ s.Linked b → (unlinked.map Prod.snd).count b ≤ 1
  waits : ∀ b ∈ s.mapBlockIndex, s.nTx b ≠ 0 → ¬ s.Linked b →
    Listed unlinked b ∨ b ∈ queue ∨ s.Orphaned b

/-- The block has been connected. -/
structure Connected (s : BlockIndex ι) (v : Validator ι) (b : ι) : Prop where
  not_failed : ¬ s.Failed b
  scripts : b ≠ v.hashGenesisBlock → (s.nStatus b).valid = .scripts
  verdict : b ≠ v.hashGenesisBlock → v.connectBlock b = .valid

variable [LinearOrder ι]

/-- Which blocks are candidates: from `top` upwards all that could be connected, and `top`. -/
structure Candidates (s : BlockIndex ι) (v : Validator ι) (candidates : List ι)
    (unlinked : List (ι × ι)) (t top : ι) (queue : List ι) : Prop where
  mem : ∀ b ∈ candidates, b ∈ s.mapBlockIndex ∧ s.Linked b ∧ s.workKey top ≤ s.workKey b
  top_mem : top ∈ candidates
  /-- The way back to `top`. -/
  back : ∀ a, s.Anc a top → ¬ s.Anc a t → s.HasData a ∧ ¬ s.Failed a ∧ v.connectBlock a = .valid
  complete : ∀ b ∈ s.mapBlockIndex, s.Linked b → s.HasData b → ¬ s.Invalid b →
    s.workKey top ≤ s.workKey b → b ∈ candidates ∨ Listed unlinked b ∨ b ∈ queue

end BlockIndex

namespace BlockTree

variable {ι : Type} [LinearOrder ι]

/-- The bookkeeping, with the tip at `t`. -/
structure Kept (v : Validator ι) (s : BlockTree ι) (t top : ι) (queue : List ι) : Prop where
  wf : s.WellFormed v.hashGenesisBlock
  records : s.Records v.hashGenesisBlock
  unpruned : s.fHavePruned = false → ∀ b ∈ s.mapBlockIndex, s.nTx b ≠ 0 → s.HasData b
  waiting : s.Waiting s.mapBlocksUnlinked t queue
  active : s.Active t
  connected : ∀ b, s.Anc b t → s.Connected v b
  linked : s.Linked t
  candidates : s.Candidates v s.setBlockIndexCandidates s.mapBlocksUnlinked t top queue
  tip_le : s.workKey t ≤ s.workKey top

end BlockTree

/-! ## Changes of status words -/

namespace BlockIndex

variable {ι : Type} {s : BlockIndex ι} {σ : ι → BlockStatus} {genesis : ι} {a b t : ι}
  {unlinked : List (ι × ι)} {queue : List ι}

theorem Invalid.of_anc (h : s.Invalid a) (hanc : s.Anc a b) : s.Invalid b := by
  obtain ⟨c, hca, hc⟩ := h
  exact ⟨c, hca.trans hanc, hc⟩

theorem Failed.of_failedValid (h : (s.nStatus b).failedValid = true) : s.Failed b := by
  unfold Failed failed
  rw [h, Bool.true_or]

theorem Records.linked_of_anc (h : s.Records genesis) (hwf : s.WellFormed genesis)
    (hb : b ∈ s.mapBlockIndex) (hlinked : s.Linked b) (hanc : s.Anc a b) : s.Linked a := by
  induction hanc with
  | refl => exact hlinked
  | tail hpath hstep ih => exact (h.linked _ (hwf.rooted.mem_of_anc hb hpath) ih).2 _ hstep

/-- Levels rise and failures stay: the other status words of a block may change as they like. -/
structure Restatus (s : BlockIndex ι) (σ : ι → BlockStatus) : Prop where
  valid : ∀ b ∈ s.mapBlockIndex, (s.nStatus b).valid ≤ (σ b).valid
  data : ∀ b ∈ s.mapBlockIndex, (σ b).haveData = (s.nStatus b).haveData
  failed : ∀ b ∈ s.mapBlockIndex, (s.nStatus b).failed = true → (σ b).failed = true
  failedValid : ∀ b ∈ s.mapBlockIndex, (s.nStatus b).failedValid = true → (σ b).failedValid = true

/-- `scripts` is the top level. -/
theorem Restatus.scripts (h : s.Restatus σ) (hb : b ∈ s.mapBlockIndex)
    (hscripts : (s.nStatus b).valid = .scripts) : (σ b).valid = .scripts := by
  have hle := h.valid b hb
  rw [hscripts] at hle
  revert hle
  cases (σ b).valid <;> decide

theorem Restatus.invalid (h : s.Restatus σ) (hwf : s.WellFormed genesis) (hb : b ∈ s.mapBlockIndex)
    (hinv : s.Invalid b) : { s with nStatus := σ }.Invalid b := by
  obtain ⟨a, hanc, ha⟩ := hinv
  exact ⟨a, hanc, h.failedValid a (hwf.rooted.mem_of_anc hb hanc) ha⟩

theorem Records.restatus (h : s.Records genesis) (hwf : s.WellFormed genesis) (hσ : s.Restatus σ)
    (htx : ∀ b ∈ s.mapBlockIndex, .transactions ≤ (σ b).valid → .transactions ≤ (s.nStatus b).valid)
    (hchain : ∀ b ∈ s.mapBlockIndex, (σ b).valid ≤ (s.nStatus b).valid ∨
      ∀ p, s.pprev b = some p → p ≠ genesis → (s.nStatus p).valid = .scripts)
    (hundo : ∀ b ∈ s.mapBlockIndex, (σ b).haveUndo = true → s.HasData b)
    (hfailed : ∀ b ∈ s.mapBlockIndex, (σ b).failed = true →
      s.Failed b ∨ { s with nStatus := σ }.Invalid b) :
    { s with nStatus := σ }.Records genesis where
  tree := fun b hb => (h.tree b hb).trans (hσ.valid b hb)
  transactions := fun b hb =>
    ⟨fun hle => (h.transactions b hb).mp (htx b hb hle),
      fun hne => ((h.transactions b hb).mpr hne).trans (hσ.valid b hb)⟩
  chain := by
    intro b hb p hp hne level hlevel hle
    have hpm := hwf.rooted.mem_parent hb hp
    rcases hchain b hb with hbefore | hparent
    · exact (h.chain b hb p hp hne level hlevel (hle.trans hbefore)).trans (hσ.valid p hpm)
    · show level ≤ (σ p).valid
      rw [hσ.scripts hpm (hparent p hp hne)]
      cases level <;> decide
  undo := fun b hb hundo' => (hσ.data b hb).trans (hundo b hb hundo')
  data := fun b hb hdata => h.data b hb ((hσ.data b hb).symm.trans hdata)
  linked := h.linked
  sequence := h.sequence
  failed := by
    intro b hb hf
    rcases hfailed b hb hf with hold | hnew
    · exact hσ.invalid hwf hb (h.failed b hb hold)
    · exact hnew

theorem Orphaned.restatus (hwf : s.WellFormed genesis) (hσ : s.Restatus σ) {b : ι}
    (hb : b ∈ s.mapBlockIndex) (h : s.Orphaned b) : { s with nStatus := σ }.Orphaned b := by
  obtain ⟨p, hp, hfailed, htx⟩ := h
  exact ⟨p, hp, hσ.failed p (hwf.rooted.mem_parent hb hp) hfailed, htx⟩

theorem Waiting.restatus (h : s.Waiting unlinked t queue) (hwf : s.WellFormed genesis)
    (hσ : s.Restatus σ) : { s with nStatus := σ }.Waiting unlinked t queue where
  entry := by
    intro e he
    obtain ⟨hmem, hprev, hdata⟩ := h.entry e he
    exact ⟨hmem, hprev, (hσ.data _ hmem).trans hdata⟩
  off := h.off
  cause := by
    intro e he
    obtain ⟨hmem, hprev, -⟩ := h.entry e he
    have hpm := hwf.rooted.mem_parent hmem hprev
    refine (h.cause e he).imp (fun hdata hnew =>
      ?_) (Or.imp_right (Or.imp_right (.restatus hwf hσ hpm)))
    exact hdata ((hσ.data _ hpm).symm.trans hnew)
  links := h.links

theorem Listed.append (h : Listed unlinked b) (extra : List (ι × ι)) :
    Listed (unlinked ++ extra) b :=
  h.imp fun _ => mem_append_left _

/-- More blocks are listed. -/
theorem Waiting.append {extra : List (ι × ι)} (h : s.Waiting unlinked t queue)
    (hextra : ∀ e ∈ extra, (e.2 ∈ s.mapBlockIndex ∧ s.pprev e.2 = some e.1 ∧ s.HasData e.2) ∧
      ¬ s.Anc e.1 t ∧
      (¬ s.HasData e.1 ∨ Listed (unlinked ++ extra) e.1 ∨ e.1 ∈ queue ∨ s.Orphaned e.1)) :
    s.Waiting (unlinked ++ extra) t queue where
  entry := fun e he => (mem_append.mp he).elim (h.entry e) fun he => (hextra e he).1
  off := fun e he => (mem_append.mp he).elim (h.off e) fun he => (hextra e he).2.1
  cause := fun e he => (mem_append.mp he).elim
    (fun he => (h.cause e he).imp_right (Or.imp_left (.append · extra))) fun he => (hextra e he).2.2
  links := h.links

variable [LinearOrder ι]

theorem Candidates.restatus {v : Validator ι} {candidates : List ι} {top : ι}
    (h : s.Candidates v candidates unlinked t top queue) (hwf : s.WellFormed genesis)
    (hσ : s.Restatus σ)
    (hback : ∀ a, s.Anc a top → ¬ s.Anc a t → (σ a).failed = (s.nStatus a).failed) :
    { s with nStatus := σ }.Candidates v candidates unlinked t top queue where
  mem := h.mem
  top_mem := h.top_mem
  back := by
    intro a hanc hoff
    obtain ⟨hdata, hfailed, hverdict⟩ := h.back a hanc hoff
    have ha := hwf.rooted.mem_of_anc (h.mem top h.top_mem).1 hanc
    refine ⟨(hσ.data a ha).trans hdata, ?_, hverdict⟩
    show ¬ (σ a).failed = true
    rw [hback a hanc hoff]
    exact hfailed
  complete := by
    intro b hb hlinked hdata hinv hle
    exact h.complete b hb hlinked ((hσ.data b hb).symm.trans hdata)
      (fun hold => hinv (hσ.invalid hwf hb hold)) hle

end BlockIndex

/-! ## The steps of `ActivateBestChain` -/

namespace BlockTree

variable {ι : Type} [LinearOrder ι] {v : Validator ι} {s : BlockTree ι} {t top : ι} {queue : List ι}

omit [LinearOrder ι] in
theorem invalidChainFound_eq (s : BlockTree ι) (b : ι) :
    ∃ best, s.invalidChainFound b = { s with pindexBestInvalid := best } := by
  unfold invalidChainFound
  split_ifs
  · exact ⟨_, rfl⟩
  · exact ⟨s.pindexBestInvalid, rfl⟩

omit [LinearOrder ι] in
theorem unusable_iff {b : ι} : s.unusable b = true ↔ s.Failed b ∨ ¬ s.HasData b := by
  rw [unusable, Bool.or_eq_true, Bool.not_eq_true', ← Bool.not_eq_true]
  rfl

/-- The tip goes down to its parent unless a file is missing. -/
theorem Active.ends_disconnectTip {genesis p : ι} (h : s.Active t) (hwf : s.WellFormed genesis)
    (hprev : s.pprev t = some p) :
    Ends (fun s' => s.HasData t ∧ s' = s.setTip (some p)) (·.stop = .disk) s.disconnectTip := by
  unfold BlockTree.disconnectTip
  rw [h.tip_eq hwf, ← hprev]
  exact .ite (fun hdisk => ⟨(Bool.and_eq_true_iff.mp hdisk).1, rfl⟩) fun _ => rfl

namespace Kept

variable (h : s.Kept v t top queue)

include h

/-- `pindexBestInvalid` plays no part. -/
theorem invalidChainFound (b : ι) : (s.invalidChainFound b).Kept v t top queue := by
  obtain ⟨best, heq⟩ := invalidChainFound_eq s b
  rw [heq]
  exact ⟨h.wf, h.records, h.unpruned, h.waiting, ⟨h.active.mem, h.active.vChain_eq⟩, h.connected,
    h.linked, h.candidates, h.tip_le⟩

variable {b new test : ι}

/-- A listed block does not stand on the active chain. -/
theorem not_listed_child (hprev : s.pprev b = some t) : ¬ BlockIndex.Listed s.mapBlocksUnlinked b := by
  rintro ⟨p, hmem⟩
  obtain ⟨-, hp, -⟩ := h.waiting.entry _ hmem
  rw [hprev] at hp
  exact h.waiting.off _ hmem (some.inj hp ▸ .refl t)

/-- The tip goes down by one block, which can be connected again if it is on the way to `top`. -/
theorem disconnectTip (hne : t ≠ v.hashGenesisBlock) :
    Ends (fun s' => ∃ p, s.pprev t = some p ∧ s' = s.setTip (some p) ∧ s'.Kept v p top queue)
      (·.stop = .disk) s.disconnectTip := by
  obtain ⟨p, hp, hprev, -⟩ := h.wf.rooted.exists_parent t h.active.mem hne
  refine (h.active.ends_disconnectTip h.wf hprev).mono ?_
  rintro _ ⟨hdata, rfl⟩
  have hup : ∀ a, s.Anc a p → s.Anc a t := fun a ha => ha.trans (.of_parent hprev)
  refine ⟨p, hprev, rfl, h.wf, h.records, h.unpruned, ?_, h.active.setTip h.wf hp,
    fun b hb => h.connected b (hup b hb), (h.records.linked t h.active.mem h.linked).2 p hprev, ?_, ?_⟩
  · exact { h.waiting with off := fun e he hanc => h.waiting.off e he (hup _ hanc) }
  · refine { h.candidates with back := fun a hanc hoff => ?_ }
    by_cases hat : s.Anc a t
    · -- the block taken off the tip itself
      obtain rfl := ((anc_iff_of_parent hprev).mp hat).resolve_right hoff
      have hcon := h.connected a hat
      exact ⟨hdata, hcon.not_failed, hcon.verdict hne⟩
    · exact h.candidates.back a hanc hat
  · exact (workKey_le h.wf h.active.mem (.of_parent hprev)).trans h.tip_le

/-- Status words may change, as long as no block of the active chain or on the way to `top` fails. -/
theorem restatus {σ : ι → BlockStatus} (hσ : s.Restatus σ)
    (hrecords : { s.toBlockIndex with nStatus := σ }.Records v.hashGenesisBlock)
    (hsame : ∀ a, s.Anc a t ∨ s.Anc a top → (σ a).failed = (s.nStatus a).failed) :
    { s with nStatus := σ }.Kept v t top queue where
  wf := h.wf
  records := hrecords
  unpruned := fun hp b hb htx => (hσ.data b hb).trans (h.unpruned hp b hb htx)
  waiting := h.waiting.restatus h.wf hσ
  active := ⟨h.active.mem, h.active.vChain_eq⟩
  connected := by
    intro b hb
    have hcon := h.connected b hb
    refine ⟨?_, fun hne => hσ.scripts (h.wf.rooted.mem_of_anc h.active.mem hb) (hcon.scripts hne),
      hcon.verdict⟩
    show ¬ (σ b).failed = true
    rw [hsame b (.inl hb)]
    exact hcon.not_failed
  linked := h.linked
  candidates := h.candidates.restatus h.wf hσ fun a hanc _ => hsame a (.inr hanc)
  tip_le := h.tip_le

/-! ### Discarding a candidate -/

/-- What lies between a candidate and the block that makes it unusable. -/
structure Between (s : BlockTree ι) (t new test : ι) : Prop where
  off : ¬ s.Anc test t
  unusable : s.unusable test = true
  anc : s.Anc test new
  mem_above : ∀ x, x ∈ s.above new test ↔ s.Anc x new ∧ s.Anc test x ∧ x ≠ test
  usable : ∀ x ∈ s.above new test, s.HasData x ∧ ¬ s.Failed x

theorem between (hnew : new ∈ s.mapBlockIndex) (hfind : (s.offChain new).find? s.unusable = some test) :
    Between s t new test := by
  obtain ⟨hunusable, front, rest, hsplit, hfront⟩ := find?_eq_some_iff_append.mp hfind
  have htest : test ∈ s.offChain new := mem_of_find?_eq_some hfind
  have hlineage : s.lineage new =
      front ++ test :: (rest ++ (s.lineage new).dropWhile fun a => !s.contains a) := by
    have happend := takeWhile_append_dropWhile (p := fun a => !s.contains a) (l := s.lineage new)
    rw [← happend]
    show s.offChain new ++ _ = _
    rw [hsplit, append_assoc, cons_append, happend]
  have hnodup := h.wf.rooted.nodup_lineage hnew
  have hnotin : test ∉ front := by
    intro hmem
    change (s.lineage new).Nodup at hnodup
    rw [hlineage] at hnodup
    exact (nodup_append.mp hnodup).2.2 test hmem test mem_cons_self rfl
  have habove : s.above new test = front := by
    unfold above
    rw [hlineage, takeWhile_append_of_pos, takeWhile_cons_of_neg (by simp), append_nil]
    intro x hx
    exact decide_eq_true fun heq => hnotin (heq ▸ hx)
  refine ⟨?_, hunusable, ?_, ?_, ?_⟩
  · intro hanc
    have hout := mem_takeWhile_imp htest
    rw [(h.active.contains_iff h.wf).mpr hanc] at hout
    cases hout
  · exact (h.wf.rooted.mem_lineage hnew).mp (takeWhile_subset _ htest)
  · intro x
    rw [habove]
    constructor
    · intro hx
      refine ⟨?_, h.wf.rooted.anc_of_lineage_eq hnew front hlineage x hx, fun heq => hnotin (heq ▸ hx)⟩
      have hmem : x ∈ s.lineage new := hlineage ▸ mem_append_left _ hx
      exact (h.wf.rooted.mem_lineage hnew).mp hmem
    · rintro ⟨hxn, htx, hne⟩
      have hmem : x ∈ s.lineage new := (h.wf.rooted.mem_lineage hnew).mpr hxn
      rw [hlineage] at hmem
      rcases mem_append.mp hmem with hx | hx
      · exact hx
      · -- a block at or below `test` that descends from it is `test`
        have htestm := h.wf.rooted.mem_of_anc (h.wf.rooted.mem_of_anc hnew hxn) htx
        rw [← h.wf.rooted.lineage_eq_of_append hnew front hlineage,
          h.wf.rooted.mem_lineage htestm] at hx
        exact absurd (h.wf.rooted.eq_of_anc_of_height_le htestm hx
          (h.wf.rooted.height_le (h.wf.rooted.mem_of_anc hnew hxn) htx)) hne
  · intro x hx
    have husable := hfront x (habove ▸ hx)
    rw [Bool.not_eq_true', ← Bool.not_eq_true, unusable_iff, not_or, not_not] at husable
    exact husable.symm

/-- `top` is not given up: the way back to it is usable. -/
theorem not_anc_top (hb : Between s t new test) : ¬ s.Anc test top := by
  intro hanc
  obtain ⟨hdata, hfailed, -⟩ := h.candidates.back test hanc hb.off
  exact (unusable_iff.mp hb.unusable).elim hfailed (absurd hdata)

/-- Candidates that cannot be connected now may go. -/
theorem filterCandidates {keep : ι → Bool} (htop : keep top = true)
    (hdrop : ∀ b ∈ s.mapBlockIndex, keep b = false →
      s.Invalid b ∨ ¬ s.HasData b ∨ BlockIndex.Listed s.mapBlocksUnlinked b) :
    { s with setBlockIndexCandidates := s.setBlockIndexCandidates.filter keep }.Kept v t top queue := by
  refine ⟨h.wf, h.records, h.unpruned, h.waiting, ⟨h.active.mem, h.active.vChain_eq⟩, h.connected,
    h.linked, ?_, h.tip_le⟩
  refine { h.candidates with
    mem := fun b hb => h.candidates.mem b (mem_of_mem_filter hb)
    top_mem := mem_filter.mpr ⟨h.candidates.top_mem, htop⟩
    complete := fun b hb hlinked hdata hinv hle => ?_ }
  rcases h.candidates.complete b hb hlinked hdata hinv hle with hmem | hother
  · by_cases hkeep : keep b = true
    · exact .inl (mem_filter.mpr ⟨hmem, hkeep⟩)
    · rcases hdrop b hb (Bool.not_eq_true _ ▸ hkeep) with hi | hd | hl
      · exact absurd hi hinv
      · exact absurd hdata hd
      · exact .inr (.inl hl)
  · exact .inr hother

section

variable (hnew : new ∈ s.mapBlockIndex) (hb : Between s t new test)
include hnew hb

/-- Everything above a failed block is marked. -/
theorem markAbove (hfailed : s.Failed test) : (s.markAbove new test).Kept v t top queue ∧
      ∀ x ∈ test :: s.above new test, (s.markAbove new test).Invalid x := by
  obtain ⟨best, hbest⟩ := invalidChainFound_eq s new
  unfold BlockTree.markAbove
  rw [hbest]
  set σ : ι → BlockStatus := fun b =>
    if b ∈ s.above new test then { s.nStatus b with failedChild := true } else s.nStatus b with hσ
  have hvalid : ∀ b, (σ b).valid = (s.nStatus b).valid := by
    intro b
    simp only [hσ]
    split_ifs <;> rfl
  have hrest : s.Restatus σ := by
    refine ⟨fun b _ => (hvalid b).ge, fun b _ => ?_, fun b _ hf => ?_, fun b _ hf => ?_⟩
    · simp only [hσ]
      split_ifs <;> rfl
    · simp only [hσ]
      split_ifs
      · exact Bool.or_true _
      · exact hf
    · simp only [hσ]
      split_ifs <;> exact hf
  have htestm : test ∈ s.mapBlockIndex := h.wf.rooted.mem_of_anc hnew hb.anc
  have hinvalid : ∀ x ∈ s.mapBlockIndex, s.Anc test x →
      { s.toBlockIndex with nStatus := σ }.Invalid x := fun x hx hanc =>
    hrest.invalid h.wf hx ((h.records.failed test htestm hfailed).of_anc hanc)
  have hrecords := h.records.restatus h.wf hrest (fun b _ hle => hvalid b ▸ hle)
    (fun b _ => .inl (hvalid b).le)
    (fun b hbm hundo => h.records.undo b hbm (by
      revert hundo
      simp only [hσ]
      split_ifs <;> exact id))
    (fun b hbm hf => by
      by_cases hmem : b ∈ s.above new test
      · exact .inr (hinvalid b hbm ((hb.mem_above b).mp hmem).2.1)
      · refine .inl ?_
        simp only [hσ, if_neg hmem] at hf
        exact hf)
  have hkept := h.invalidChainFound new
  rw [hbest] at hkept
  refine ⟨hkept.restatus hrest hrecords fun a ha => ?_, ?_⟩
  · -- neither the active chain nor the way to `top` passes through the marked blocks
    have hmem : a ∉ s.above new test := by
      intro hmem
      have htesta := ((hb.mem_above a).mp hmem).2.1
      rcases ha with hat | hatop
      · exact hb.off (htesta.trans hat)
      · exact h.not_anc_top hb (htesta.trans hatop)
    simp only [hσ, if_neg hmem]
  · refine forall_mem_cons.mpr ⟨hinvalid test htestm (.refl test), ?_⟩
    intro x habove
    obtain ⟨hxn, htx, -⟩ := (hb.mem_above x).mp habove
    exact hinvalid x (h.wf.rooted.mem_of_anc hnew hxn) htx

/-- Everything above a block without data waits for it. -/
theorem relistAbove (hdata : ¬ s.HasData test) : (s.relistAbove new test).Kept v t top queue ∧
      ∀ x ∈ s.above new test, BlockIndex.Listed (s.relistAbove new test).mapBlocksUnlinked x := by
  set extra := (s.above new test).filterMap fun b => (s.pprev b).map fun p => (p, b) with hextra
  have hmem : ∀ e, e ∈ extra ↔ e.2 ∈ s.above new test ∧ s.pprev e.2 = some e.1 := by
    rintro ⟨p, x⟩
    simp only [hextra, mem_filterMap, map_eq_some_iff, Prod.mk.injEq]
    constructor
    · rintro ⟨b, hb, q, hq, rfl, rfl⟩
      exact ⟨hb, hq⟩
    · rintro ⟨hx, hp⟩
      exact ⟨x, hx, p, hp, rfl, rfl⟩
  have hknown : ∀ x ∈ s.above new test, x ∈ s.mapBlockIndex := fun x hx =>
    h.wf.rooted.mem_of_anc hnew ((hb.mem_above x).mp hx).1
  -- a block above `test` has a parent, which is `test` or above it as well
  have hparent : ∀ x ∈ s.above new test, ∃ p, s.pprev x = some p ∧
      (p = test ∨ p ∈ s.above new test) := by
    intro x hx
    obtain ⟨hxn, htx, hne⟩ := (hb.mem_above x).mp hx
    rcases Lineage.anc_iff.mp htx with heq | ⟨p, hp, htp⟩
    · exact absurd heq.symm hne
    · refine ⟨p, hp, ?_⟩
      by_cases heq : p = test
      · exact .inl heq
      · exact .inr ((hb.mem_above p).mpr ⟨(Lineage.Anc.of_parent hp).trans hxn, htp, heq⟩)
  have hlisted : ∀ x ∈ s.above new test, BlockIndex.Listed (s.mapBlocksUnlinked ++ extra) x := by
    intro x hx
    obtain ⟨p, hp, -⟩ := hparent x hx
    exact ⟨p, mem_append_right _ ((hmem (p, x)).mpr ⟨hx, hp⟩)⟩
  refine ⟨⟨h.wf, h.records, h.unpruned, h.waiting.append fun e he => ?_,
    ⟨h.active.mem, h.active.vChain_eq⟩, h.connected, h.linked, ?_, h.tip_le⟩, hlisted⟩
  · obtain ⟨hx, hp⟩ := (hmem e).mp he
    obtain ⟨p, hp', hcase⟩ := hparent _ hx
    obtain rfl := some.inj (hp.symm.trans hp')
    refine ⟨⟨hknown _ hx, hp, (hb.usable _ hx).1⟩, fun hanc => ?_, ?_⟩
    · rcases hcase with heq | habove
      · exact hb.off (heq ▸ hanc)
      · exact hb.off (((hb.mem_above _).mp habove).2.1.trans hanc)
    · rcases hcase with heq | habove
      · exact .inl (heq ▸ hdata)
      · exact .inr (.inl (hlisted _ habove))
  · exact { h.candidates with complete := fun b hbm hl hd hinv hle =>
      (h.candidates.complete b hbm hl hd hinv hle).imp_right (Or.imp_left (.append · extra)) }

/-- A round of `FindMostWorkChain`. -/
theorem discard : (s.discard new test).Kept v t top queue := by
  -- `top` is not given up
  have htop : (decide (top ∉ test :: s.above new test)) = true := by
    refine decide_eq_true fun hmem => ?_
    rcases mem_cons.mp hmem with rfl | habove
    · exact h.not_anc_top hb (.refl _)
    · exact h.not_anc_top hb ((hb.mem_above top).mp habove).2.1
  have hout : ∀ b, decide (b ∉ test :: s.above new test) = false → b ∈ test :: s.above new test :=
    fun b hb => not_not.mp (of_decide_eq_false hb)
  unfold BlockTree.discard
  by_cases hfailed : (s.nStatus test).failed = true
  · rw [if_pos hfailed]
    obtain ⟨hkept, hinvalid⟩ := h.markAbove hnew hb hfailed
    exact hkept.filterCandidates htop fun b _ hdrop => .inl (hinvalid b (hout b hdrop))
  · rw [if_neg hfailed]
    have hdata : ¬ s.HasData test := (unusable_iff.mp hb.unusable).resolve_left hfailed
    obtain ⟨hkept, hlisted⟩ := h.relistAbove hnew hb hdata
    refine hkept.filterCandidates htop fun b _ hdrop => .inr ?_
    rcases mem_cons.mp (hout b hdrop) with rfl | habove
    · exact .inl hdata
    · exact .inr (hlisted b habove)

end

/-! ### Connecting a block -/

/-- A block that can be connected to the tip. -/
structure Next (s : BlockTree ι) (t b : ι) : Prop where
  mem : b ∈ s.mapBlockIndex
  prev : s.pprev b = some t
  linked : s.Linked b
  data : s.HasData b
  not_failed : ¬ s.Failed b

omit h in
theorem connectedStatus_failed {st : BlockStatus} : (connectedStatus v b st).failed = st.failed := by
  have hundo : ∀ st' : BlockStatus, ({ st' with haveUndo := true } : BlockStatus).failed = st'.failed :=
    fun _ => rfl
  unfold connectedStatus
  dsimp only
  split_ifs
  · rfl
  · rw [raiseValidity_failed, hundo, raiseValidity_failed]
  · rw [raiseValidity_failed]

omit h in
theorem connectedStatus_spec {st : BlockStatus} (hb : b ≠ v.hashGenesisBlock)
    (hst : st.failed = false) :
    (connectedStatus v b st).valid = .scripts ∧ (connectedStatus v b st).haveData = st.haveData ∧
      (connectedStatus v b st).failedValid = st.failedValid := by
  unfold connectedStatus
  rw [if_neg hb]
  dsimp only
  split_ifs with hundo
  · have hfailed :
      ({ st.raiseValidity .stake with haveUndo := true } : BlockStatus).failed = false := by
      show (st.raiseValidity .stake).failed = false
      rw [raiseValidity_failed, hst]
    refine ⟨?_, by simp, by simp⟩
    rw [raiseValidity_valid hfailed]
    cases (st.raiseValidity .stake).valid <;> decide
  · have hfailed : (st.raiseValidity .stake).failed = false := by
      rw [raiseValidity_failed, hst]
    refine ⟨?_, by simp, by simp⟩
    -- the undo data is there and the level is reached
    have hvalid : BlockValidity.scripts ≤ (st.raiseValidity .stake).valid := by
      simp only [isValid, hfailed, Bool.not_false, Bool.true_and, Bool.not_eq_true,
        Bool.or_eq_false_iff, Bool.not_eq_false', decide_eq_true_eq] at hundo
      exact hundo.2
    revert hvalid
    cases (st.raiseValidity .stake).valid <;> decide

theorem not_invalid_next (hb : Next s t b) : ¬ s.Invalid b := by
  rintro ⟨a, hanc, ha⟩
  rcases (anc_iff_of_parent hb.prev).mp hanc with rfl | hat
  · exact hb.not_failed (.of_failedValid ha)
  · exact (h.connected a hat).not_failed (.of_failedValid ha)

theorem next_not_anc (hb : Next s t b) : ¬ s.Anc b t := by
  intro hanc
  have h1 := h.wf.rooted.height_le h.active.mem hanc
  have h2 := h.wf.rooted.height_parent hb.mem hb.prev
  omega

/-- What holds for the status words when a block is connected or rejected: only its own word changes,
and its parent is connected. -/
theorem records_update (hb : Next s t b) (st : BlockStatus) (hvalid : (s.nStatus b).valid ≤ st.valid)
    (hdata : st.haveData = (s.nStatus b).haveData) (hfailed : st.failed = true →
      st.failedValid = true) :
    s.Restatus (update s.nStatus b st) ∧
      { s.toBlockIndex with nStatus := update s.nStatus b st }.Records
        v.hashGenesisBlock := by
  have hnot : (s.nStatus b).failed = false := Bool.not_eq_true _ ▸ hb.not_failed
  have hfv : (s.nStatus b).failedValid = false := by
    exact (Bool.or_eq_false_iff.mp hnot).1
  have hrest : s.Restatus (update s.nStatus b st) := by
    refine ⟨fun x hx => ?_, fun x hx => ?_, fun x hx hf => ?_, fun x hx hf => ?_⟩
    all_goals
      by_cases hxb : x = b
      · subst hxb
        simp_all [update_self]
      · simp_all [update_of_ne]
  refine ⟨hrest, h.records.restatus h.wf hrest ?_ ?_ ?_ ?_⟩
  · intro x hx hle
    by_cases hxb : x = b
    · exact (h.records.transactions x hx).mpr (hxb ▸ h.records.data b hb.mem hb.data)
    · rwa [update_of_ne hxb] at hle
  · intro x hx
    by_cases hxb : x = b
    · refine .inr fun p hp hne => ?_
      rw [hxb, hb.prev] at hp
      obtain rfl := some.inj hp
      exact (h.connected t (.refl t)).scripts hne
    · rw [update_of_ne hxb]
      exact .inl le_rfl
  · intro x hx hundo
    by_cases hxb : x = b
    · exact hxb ▸ hb.data
    · rw [update_of_ne hxb] at hundo
      exact h.records.undo x hx hundo
  · intro x hx hf
    by_cases hxb : x = b
    · subst hxb
      rw [update_self] at hf
      exact .inr ⟨x, .refl x, by
        show (update s.nStatus x st x).failedValid = true
        rw [update_self]
        exact hfailed hf⟩
    · rw [update_of_ne hxb] at hf
      exact .inl hf

end Kept

section

variable (v : Validator ι) (s : BlockTree ι) (b : ι)

/-- The tree after `ConnectTip` has accepted a block. -/
def accepted : BlockTree ι :=
  (s.setStatus b (connectedStatus v b)).setTip (some b)

/-- And after `PruneBlockIndexCandidates`. -/
def advanced : BlockTree ι :=
  { s.accepted v b with
    setBlockIndexCandidates := s.setBlockIndexCandidates.filter fun c => !s.worse c b }

/-- The tree after `ConnectTip` has rejected a block. -/
def rejected (fStake : Bool) : BlockTree ι :=
  (s.setStatus b (rejectedStatus fStake)).invalidBlockFound b false

theorem rejected_eq (fStake : Bool) : s.rejected b fStake =
      ((s.setStatus b fun st => { rejectedStatus fStake st with failedValid := true }).eraseCandidate
        b).invalidChainFound b := by
  unfold rejected invalidBlockFound setStatus
  rw [if_neg Bool.false_ne_true]
  simp

end

namespace Kept

section

variable {b : ι} (h : s.Kept v t top []) (hb : Next s t b)

include h hb

/-- The new tip is a candidate if it has passed `top`. -/
theorem mem_candidates_next (hle : s.workKey top ≤ s.workKey b) : b ∈ s.setBlockIndexCandidates := by
  rcases h.candidates.complete b hb.mem hb.linked hb.data (h.not_invalid_next hb) hle with
    hmem | hlisted | hqueue
  · exact hmem
  · exact absurd hlisted (h.not_listed_child hb.prev)
  · cases hqueue

/-- Nothing waits for a block that has its data and stands on the active chain. -/
theorem waiting_next : s.Waiting s.mapBlocksUnlinked b [] := by
  refine { h.waiting with off := fun e he hanc => ?_ }
  rcases (anc_iff_of_parent hb.prev).mp hanc with heb | het
  · rcases h.waiting.cause e he with hd | hl | hq | ⟨p, hp, hpf, -⟩
    · exact hd (heb ▸ hb.data)
    · exact h.not_listed_child hb.prev (heb ▸ hl)
    · cases hq
    · rw [heb, hb.prev] at hp
      obtain rfl := some.inj hp
      exact (h.connected t (.refl t)).not_failed hpf
  · exact h.waiting.off e he het

/-- Candidates from the new tip upwards, when the tip has moved to `b`. -/
theorem candidates_next : ∃ top', s.workKey top ≤ s.workKey top' ∧ s.workKey b ≤ s.workKey top' ∧
    s.Candidates v (s.setBlockIndexCandidates.filter fun c => !s.worse c b) s.mapBlocksUnlinked b
      top' [] := by
  have hkeep : ∀ c, (!s.worse c b) = true ↔ s.workKey b ≤ s.workKey c := by
    intro c
    rw [Bool.not_eq_true', worse_eq_false_iff]
  have hfilter : ∀ c ∈ s.mapBlockIndex, s.Linked c → s.HasData c → ¬ s.Invalid c →
      s.workKey top ≤ s.workKey c → s.workKey b ≤ s.workKey c →
      c ∈ (s.setBlockIndexCandidates.filter fun c => !s.worse c b) ∨
        BlockIndex.Listed s.mapBlocksUnlinked c ∨ c ∈ ([] : List ι) := by
    intro c hc hl hd hi htop hle
    rcases h.candidates.complete c hc hl hd hi htop with hmem | hother
    · exact .inl (mem_filter.mpr ⟨hmem, (hkeep c).mpr hle⟩)
    · exact .inr hother
  rcases le_total (s.workKey b) (s.workKey top) with hle | hle
  · -- the tip is still below `top`
    refine ⟨top, le_rfl, hle, fun c hc => h.candidates.mem c (mem_of_mem_filter hc),
      mem_filter.mpr ⟨h.candidates.top_mem, (hkeep top).mpr hle⟩, fun a hanc hoff => ?_,
      fun c hc hl hd hi htop => hfilter c hc hl hd hi htop (hle.trans htop)⟩
    exact h.candidates.back a hanc fun hat => hoff (hat.trans (.of_parent hb.prev))
  · refine ⟨b, hle, le_rfl, fun c hc => ?_,
      mem_filter.mpr ⟨h.mem_candidates_next hb hle, (hkeep b).mpr le_rfl⟩,
      fun a hanc hoff => absurd hanc hoff,
      fun c hc hl hd hi htop => hfilter c hc hl hd hi (hle.trans htop) htop⟩
    obtain ⟨hcm, hcl, -⟩ := h.candidates.mem c (mem_of_mem_filter hc)
    exact ⟨hcm, hcl, (hkeep c).mp (mem_filter.mp hc).2⟩

/-- A valid block gets its new status word. -/
theorem setStatus_connected : (s.setStatus b (connectedStatus v b)).Kept v t top [] ∧
    Next (s.setStatus b (connectedStatus v b)) t b ∧
    ((connectedStatus v b) (s.nStatus b)).valid = .scripts := by
  have hne : b ≠ v.hashGenesisBlock := h.wf.rooted.ne_root hb.prev
  have hnot : (s.nStatus b).failed = false := Bool.not_eq_true _ ▸ hb.not_failed
  obtain ⟨hscripts, hdata, -⟩ := connectedStatus_spec (v := v) hne hnot
  have hfailed : (connectedStatus v b (s.nStatus b)).failed = false := connectedStatus_failed.trans hnot
  obtain ⟨hrest, hrecords⟩ := h.records_update hb (connectedStatus v b (s.nStatus b))
    (by rw [hscripts]; cases (s.nStatus b).valid <;> decide) hdata
    (fun hf => absurd (hfailed.symm.trans hf) Bool.false_ne_true)
  refine ⟨h.restatus hrest hrecords fun a _ => ?_, ⟨hb.mem, hb.prev, hb.linked, ?_, ?_⟩, hscripts⟩
  · by_cases hab : a = b
    · rw [hab, update_self, hfailed, hnot]
    · rw [update_of_ne hab]
  · show (update s.nStatus b (connectedStatus v b (s.nStatus b)) b).haveData = true
    rw [update_self, hdata]
    exact hb.data
  · show ¬ (update s.nStatus b (connectedStatus v b (s.nStatus b)) b).failed = true
    rw [update_self, hfailed]
    exact Bool.false_ne_true

/-- A valid block becomes the tip. `top` follows if the tip has passed it. -/
theorem advanced (hverdict : v.connectBlock b = .valid) :
    ∃ top', s.workKey top ≤ s.workKey top' ∧ (s.advanced v b).Kept v b top' [] := by
  obtain ⟨hkept, hnext, hscripts⟩ := h.setStatus_connected hb
  obtain ⟨top', htop, hle, hcand⟩ := hkept.candidates_next hnext
  have hactive := hkept.active.setTip hkept.wf hb.mem
  refine ⟨top', htop, hkept.wf, hkept.records, hkept.unpruned, hkept.waiting_next hnext,
    ⟨hactive.mem, hactive.vChain_eq⟩, fun a ha => ?_, hb.linked, hcand, hle⟩
  rcases (anc_iff_of_parent hb.prev).mp ha with rfl | hat
  · refine ⟨hnext.not_failed, fun _ => ?_, fun _ => hverdict⟩
    show (update s.nStatus a (connectedStatus v a (s.nStatus a)) a).valid = .scripts
    rw [update_self, hscripts]
  · exact hkept.connected a hat

/-- The code takes that step. -/
theorem connectTip_valid (hverdict : v.connectBlock b = .valid) :
    s.connectTip v b = .ok (.connected (s.accepted v b)) ∧
      (s.accepted v b).pruneBlockIndexCandidates = .ok (s.advanced v b) := by
  obtain ⟨hkept, -, -⟩ := h.setStatus_connected hb
  have hactive : (s.accepted v b).Active b := hkept.active.setTip hkept.wf hb.mem
  constructor
  · unfold connectTip
    rw [if_neg (not_not.mpr (hb.prev.trans (h.active.tip_eq h.wf).symm)),
      if_neg (by rw [Bool.not_eq_true', show (s.nStatus b).haveData = true from hb.data]; decide),
      hverdict]
    rfl
  · have hprune : (s.accepted v b).notWorseThanTip = fun c => !s.worse c b := by
      unfold notWorseThanTip
      rw [hactive.tip_eq hkept.wf]
      rfl
    -- `top` is left, so the set is not empty
    obtain ⟨top', -, hk⟩ := h.advanced hb hverdict
    unfold pruneBlockIndexCandidates
    rw [hprune]
    exact if_neg fun hnil => ne_nil_of_mem hk.candidates.top_mem hnil

/-! ### Rejecting a block -/

/-- An invalid block is marked and is no candidate any more. It was not on the way to `top`, where
every block has been connected before. -/
theorem rejected {fStake : Bool} (hverdict : v.connectBlock b = .invalid false fStake) :
    s.connectTip v b = .ok (.invalid (s.rejected b fStake) false) ∧
      (s.rejected b fStake).Kept v t top [] := by
  have hnotanc : ∀ a, s.Anc a t ∨ s.Anc a top → a ≠ b := by
    rintro a ha rfl
    rcases ha with hat | hatop
    · exact h.next_not_anc hb hat
    · have := (h.candidates.back a hatop (h.next_not_anc hb)).2.2
      rw [hverdict] at this
      cases this
  have hdata : (rejectedStatus fStake (s.nStatus b)).haveData = (s.nStatus b).haveData := by
    unfold rejectedStatus
    split_ifs
    · exact raiseValidity_haveData
    · rfl
  have hvalid : (s.nStatus b).valid ≤ (rejectedStatus fStake (s.nStatus b)).valid := by
    unfold rejectedStatus
    split_ifs
    · exact le_raiseValidity_valid
    · exact le_rfl
  obtain ⟨hrest, hrecords⟩ := h.records_update hb
    { rejectedStatus fStake (s.nStatus b) with failedValid := true } hvalid hdata (fun _ => rfl)
  have hmarked : (s.setStatus b fun st => { rejectedStatus fStake st with failedValid := true }).Kept
      v t top [] :=
    h.restatus hrest hrecords fun a ha => by rw [update_of_ne (hnotanc a ha)]
  constructor
  · unfold connectTip
    rw [if_neg (not_not.mpr (hb.prev.trans (h.active.tip_eq h.wf).symm)),
      if_neg (by rw [Bool.not_eq_true', show (s.nStatus b).haveData = true from hb.data]; decide),
      hverdict]
    rfl
  · rw [rejected_eq]
    refine (hmarked.filterCandidates (decide_eq_true (hnotanc top (.inr (.refl top))))
      fun c _ hc => .inl ?_).invalidChainFound b
    obtain rfl : c = b := not_not.mp (of_decide_eq_false hc)
    refine ⟨c, .refl c, ?_⟩
    show (update s.nStatus c _ c).failedValid = true
    rw [update_self]

end

end Kept

end BlockTree

end Chratos
