import Chratos.Chain.Bookkeeping
import Chratos.Lib.TreeWalk
import Mathlib.Data.List.Find

/-!
# Chratos — `CheckBlockIndex`

The assertions with which the node checks its block tree (`-checkblockindex`). They are made block by
block while the tree is gone through depth first, and many of them are about the first block of a
kind between genesis and the current one: the first that is invalid, the first without data and so on
(`FirstMark`).
-/

namespace Chratos

open Option List

/-- The kinds of blocks of which `CheckBlockIndex` remembers the first. -/
inductive FirstMark where
  | invalid
  | missing
  | neverProcessed
  | notTreeValid
  | notTransactionsValid
  | notChainValid
  | notStakeValid
  | notScriptsValid
  deriving DecidableEq

namespace BlockTree

variable {ι : Type}

/-- A block other than genesis that has not reached a level. -/
def notValid (s : BlockTree ι) (level : BlockValidity) (b : ι) : Bool :=
  (s.pprev b).isSome && decide ((s.nStatus b).valid < level)

def marked (s : BlockTree ι) : FirstMark → ι → Bool
  | .invalid, b => (s.nStatus b).failedValid
  | .missing, b => !(s.nStatus b).haveData
  | .neverProcessed, b => s.nTx b = 0
  | .notTreeValid, b => s.notValid .tree b
  | .notTransactionsValid, b => s.notValid .transactions b
  | .notChainValid, b => s.notValid .chain b
  | .notStakeValid, b => s.notValid .stake b
  | .notScriptsValid, b => s.notValid .scripts b

variable [LinearOrder ι]

/-! ## The assertions for one block -/

section

variable (v : Validator ι) (s : BlockTree ι) (b : ι)

def CheckGenesis : Prop :=
  s.pprev b = none → b = v.hashGenesisBlock ∧ s.vChain.head? = some b

variable (first : FirstMark → Option ι)

@[mk_iff]
structure CheckData : Prop where
  /-- `nSequenceId` can't be set for blocks that aren't linked. -/
  sequence : s.nChainTx b = 0 → s.nSequenceId b = 0
  data : if s.fHavePruned then (s.nStatus b).haveData = true → 0 < s.nTx b
    else ((s.nStatus b).haveData = false ↔ s.nTx b = 0) ∧ first .missing = first .neverProcessed
  undo : (s.nStatus b).haveUndo = true → (s.nStatus b).haveData = true
  /-- This is pruning-independent. -/
  transactions : .transactions ≤ (s.nStatus b).valid ↔ 0 < s.nTx b
  processed : first .neverProcessed ≠ none ↔ s.nChainTx b = 0
  valid : first .notTransactionsValid ≠ none ↔ s.nChainTx b = 0

@[mk_iff]
structure CheckShape (nHeight : Nat) : Prop where
  height : s.nHeight b = nHeight
  work : ∀ p ∈ s.pprev b, s.nChainWork p ≤ s.nChainWork b
  /-- The `pskip` pointer must point back for all but the first 2 blocks. -/
  skip : nHeight < 2 ∨ ∃ skip ∈ s.pskip b, s.nHeight skip < nHeight

@[mk_iff]
structure CheckLevels : Prop where
  all : first .notTreeValid = none
  tree : .tree ≤ (s.nStatus b).valid → first .notTreeValid = none
  chain : .chain ≤ (s.nStatus b).valid → first .notChainValid = none
  stake : .stake ≤ (s.nStatus b).valid → first .notStakeValid = none
  scripts : .scripts ≤ (s.nStatus b).valid → first .notScriptsValid = none

def CheckCandidate : Prop :=
  if s.notWorseThanTip b = true ∧ first .neverProcessed = none then
    first .invalid = none → first .missing = none ∨ s.tip = some b → b ∈ s.setBlockIndexCandidates
  else b ∉ s.setBlockIndexCandidates

/-- `mapBlocksUnlinked` lists the block under its parent. -/
def foundInUnlinked : Bool :=
  s.mapBlocksUnlinked.any fun e => some e.1 = s.pprev b && e.2 = b

@[mk_iff]
structure CheckUnlinked : Prop where
  /-- Some parent was never received, and there are no invalid parents. -/
  waits : s.pprev b ≠ none ∧ (s.nStatus b).haveData = true ∧ first .neverProcessed ≠ none ∧
    first .invalid = none → s.foundInUnlinked b = true
  data : (s.nStatus b).haveData = false → s.foundInUnlinked b = false
  /-- We aren't missing data for any parent. -/
  missing : first .missing = none → s.foundInUnlinked b = false
  /-- The data of all parents was there at some point, but now some of it is missing. -/
  pruned : s.pprev b ≠ none ∧ (s.nStatus b).haveData = true ∧ first .neverProcessed = none ∧
    first .missing ≠ none → s.fHavePruned = true ∧
      (s.notWorseThanTip b = true ∧ b ∉ s.setBlockIndexCandidates ∧ first .invalid = none →
        s.foundInUnlinked b = true)

/-- All assertions made when the loop meets `b`. -/
@[mk_iff]
structure Passes (nHeight : Nat) : Prop where
  genesis : s.CheckGenesis v b
  data : s.CheckData b first
  shape : s.CheckShape b nHeight
  levels : s.CheckLevels b first
  /-- The failed mask cannot be set for blocks without invalid parents. -/
  failed : first .invalid = none → (s.nStatus b).failed = false
  candidate : s.CheckCandidate b first
  unlinked : s.CheckUnlinked b first

end

section

variable (v : Validator ι) (s : BlockTree ι) (b : ι) (first : FirstMark → Option ι) (nHeight : Nat)

instance : Decidable (s.CheckGenesis v b) := inferInstanceAs (Decidable (_ → _))

instance : Decidable (s.CheckData b first) := decidable_of_iff' _ (checkData_iff s b first)

instance : Decidable (s.CheckShape b nHeight) := decidable_of_iff' _ (checkShape_iff s b nHeight)

instance : Decidable (s.CheckLevels b first) := decidable_of_iff' _ (checkLevels_iff s b first)

instance : Decidable (s.CheckCandidate b first) := inferInstanceAs (Decidable (ite _ _ _))

instance : Decidable (s.CheckUnlinked b first) := decidable_of_iff' _ (checkUnlinked_iff s b first)

instance : Decidable (s.Passes v b first nHeight) :=
    decidable_of_iff' _ (passes_iff v s b first nHeight)

end

/-! ## The loop -/

def treeWalk (v : Validator ι) (s : BlockTree ι) : TreeWalk ι FirstMark where
  parent := s.pprev
  height := s.nHeight
  nodes := s.mapBlockIndex
  marked := s.marked
  check := fun b first nHeight => s.Passes v b first nHeight

/-- `CheckBlockIndex`: whether no assertion fails. -/
def checkBlockIndex (v : Validator ι) (s : BlockTree ι) : Bool :=
  -- during a reindex there may be no active chain yet
  if s.vChain = [] then s.mapBlockIndex.length ≤ 1
  else match (s.treeWalk v).children none with
    | [genesis] =>
      (s.treeWalk v).walk (2 * s.mapBlockIndex.length) (.visit genesis) 0 (fun _ => none) 0 =
        some s.mapBlockIndex.length
    | _ => false

/-- The first blocks of a lineage. -/
def firsts (s : BlockTree ι) (b : ι) : FirstMark → Option ι := fun k =>
  (s.lineage b).reverse.find? (s.marked k)

variable {v : Validator ι} {s : BlockTree ι} {t : ι}

/-- Each block is checked once, against its own lineage. -/
theorem checkBlockIndex_iff (hwf : s.WellFormed v.hashGenesisBlock) (hactive : s.Active t) :
    s.checkBlockIndex v = true ↔
      ∀ b ∈ s.mapBlockIndex, s.Passes v b (s.firsts b) (s.nHeight b) := by
  have hnil : s.vChain ≠ [] := by
    have hlen := hactive.length_vChain hwf
    intro hnil
    rw [hnil] at hlen
    cases hlen
  have hwalk := TreeWalk.walk_root (w := s.treeWalk v) hwf.rooted hwf.nodup
  have hroot := TreeWalk.children_none (w := s.treeWalk v) hwf.rooted hwf.nodup
  unfold checkBlockIndex
  rw [if_neg hnil, hroot]
  rw [decide_eq_true_eq]
  constructor
  · intro hsome b hb
    by_cases hpassed : (s.treeWalk v).Passed (s.treeWalk v).nodes
    · exact of_decide_eq_true (hpassed b hb)
    · rw [if_neg hpassed] at hwalk
      exact absurd (hwalk.symm.trans hsome) nofun
  · intro hall
    have hpassed : (s.treeWalk v).Passed (s.treeWalk v).nodes := fun b hb => decide_eq_true (hall b hb)
    rw [if_pos hpassed] at hwalk
    exact hwalk

/-! ## What the assertions say -/

variable {genesis b : ι}

section

omit [LinearOrder ι]

theorem notValid_eq_false {level : BlockValidity} :
    s.notValid level b = false ↔ s.pprev b = none ∨ level ≤ (s.nStatus b).valid := by
  unfold notValid
  rw [Bool.and_eq_false_iff, isSome_eq_false_iff, isNone_iff_eq_none,
    decide_eq_false_iff_not, not_lt]

variable (hwf : s.WellFormed genesis) (hb : b ∈ s.mapBlockIndex)
include hwf hb

theorem firsts_eq_none {k : FirstMark} :
    s.firsts b k = none ↔ ∀ a, s.Anc a b → s.marked k a = false := by
  unfold firsts
  rw [find?_eq_none]
  constructor
  · intro hall a ha
    exact Bool.not_eq_true _ ▸ hall a (mem_reverse.mpr ((hwf.rooted.mem_lineage hb).mpr ha))
  · intro hall a ha
    rw [hall a ((hwf.rooted.mem_lineage hb).mp (mem_reverse.mp ha))]
    exact Bool.false_ne_true

theorem not_invalid_iff : s.firsts b .invalid = none ↔ ¬ s.Invalid b := by
  rw [firsts_eq_none hwf hb]
  constructor
  · rintro hall ⟨a, hanc, ha⟩
    exact Bool.false_ne_true ((hall a hanc).symm.trans ha)
  · intro hinv a hanc
    exact Bool.not_eq_true _ ▸ fun ha => hinv ⟨a, hanc, ha⟩

theorem not_missing_iff : s.firsts b .missing = none ↔ ∀ a, s.Anc a b → s.HasData a := by
  rw [firsts_eq_none hwf hb]
  exact forall₂_congr fun a _ => iff_of_eq (Bool.not_eq_false' _)

end

theorem foundInUnlinked_iff (hentry : ∀ e ∈ s.mapBlocksUnlinked, s.pprev e.2 = some e.1) :
    s.foundInUnlinked b = true ↔ BlockIndex.Listed s.mapBlocksUnlinked b := by
  unfold foundInUnlinked
  rw [List.any_eq_true]
  constructor
  · rintro ⟨e, he, hpair⟩
    rw [Bool.and_eq_true, decide_eq_true_eq, decide_eq_true_eq] at hpair
    exact ⟨e.1, hpair.2 ▸ he⟩
  · rintro ⟨p, hp⟩
    refine ⟨(p, b), hp, ?_⟩
    rw [Bool.and_eq_true, decide_eq_true_eq, decide_eq_true_eq]
    exact ⟨(hentry _ hp).symm, rfl⟩

/-! ## The bookkeeping passes -/

namespace Kept

variable (h : s.Kept v t t [])

include h

theorem genesis_linked : s.Linked v.hashGenesisBlock :=
  h.records.linked_of_anc h.wf h.active.mem h.linked (h.wf.rooted.root_anc h.active.mem)

variable (hb : b ∈ s.mapBlockIndex)
include hb

/-- A block is linked when the data of its whole lineage has been there. -/
theorem linked_iff : s.Linked b ↔ ∀ a, s.Anc a b → s.nTx a ≠ 0 := by
  constructor
  · intro hlinked a ha
    have ham := h.wf.rooted.mem_of_anc hb ha
    exact (h.records.linked a ham (h.records.linked_of_anc h.wf hb hlinked ha)).1
  · refine h.wf.rooted.induction (fun _ => h.genesis_linked) ?_ b hb
    intro b p hb _ hp ih hall
    have hlinked : s.Linked p := ih fun a ha => hall a (ha.trans (.of_parent hp))
    have hself := hall b (.refl b)
    refine (h.waiting.links b hb hself fun q hq => ?_).resolve_right not_mem_nil
    rw [hp] at hq
    exact some.inj hq ▸ hlinked

theorem neverProcessed_iff : s.firsts b .neverProcessed = none ↔ s.Linked b := by
  rw [firsts_eq_none h.wf hb, h.linked_iff hb]
  exact forall₂_congr fun a _ => decide_eq_false_iff_not

/-- A listed block stands on one without data, which is not active. -/
theorem exists_missing (hlisted : BlockIndex.Listed s.mapBlocksUnlinked b) :
    ∃ a, s.Anc a b ∧ ¬ s.Anc a t ∧ ¬ s.HasData a := by
  revert hlisted
  refine h.wf.rooted.induction ?_ ?_ b hb
  · rintro ⟨p, hp⟩
    have hprev := (h.waiting.entry _ hp).2.1
    rw [h.wf.rooted.root_parent] at hprev
    cases hprev
  · intro b p hb hpm hp ih hlisted
    have hpb : s.Anc p b := .of_parent hp
    obtain ⟨q, hq⟩ := hlisted
    have hprev := (h.waiting.entry _ hq).2.1
    rw [hp] at hprev
    obtain rfl := some.inj hprev
    rcases h.waiting.cause _ hq with hdata | hlist | hqueue | ⟨g, hg, hgf, htx⟩
    · exact ⟨p, hpb, h.waiting.off _ hq, hdata⟩
    · obtain ⟨a, ha, hoff, hdata⟩ := ih hlist
      exact ⟨a, ha.trans hpb, hoff, hdata⟩
    · cases hqueue
    · -- the grandparent has failed and has never had data
      have hgp : s.Anc g p := .of_parent hg
      exact ⟨g, hgp.trans hpb, fun hgt => (h.connected g hgt).not_failed hgf, fun hdata =>
        h.records.data g (h.wf.rooted.mem_of_anc hpm hgp) hdata htx⟩

theorem checkData : s.CheckData b (s.firsts b) := by
  have htx := h.records.transactions b hb
  refine ⟨fun hzero => h.records.sequence b hb (not_not.mpr hzero), ?_, h.records.undo b hb,
    htx.trans pos_iff_ne_zero.symm, ?_, ?_⟩
  · by_cases hpruned : s.fHavePruned = true
    · rw [if_pos hpruned]
      exact fun hdata => pos_of_ne_zero (h.records.data b hb hdata)
    · rw [if_neg hpruned]
      -- without pruning a block has its data since it has arrived
      have hsame : ∀ a ∈ s.mapBlockIndex, ((s.nStatus a).haveData = false ↔ s.nTx a = 0) := by
        intro a ha
        rw [← Bool.not_eq_true, not_iff_comm]
        exact ⟨h.unpruned (Bool.not_eq_true _ ▸ hpruned) a ha, h.records.data a ha⟩
      refine ⟨hsame b hb, find?_congr fun a ha => ?_⟩
      have ham := h.wf.rooted.mem_of_anc hb ((h.wf.rooted.mem_lineage hb).mp (mem_reverse.mp ha))
      show (!(s.nStatus a).haveData) = decide (s.nTx a = 0)
      rw [Bool.eq_iff_iff, Bool.not_eq_true', hsame a ham, decide_eq_true_eq]
  · rw [Ne, h.neverProcessed_iff hb]
    exact not_not
  · rw [Ne, firsts_eq_none h.wf hb]
    -- genesis is linked, and for the other blocks the level says that the data has arrived
    have hlevels : (∀ a, s.Anc a b → s.marked .notTransactionsValid a = false) ↔ s.Linked b := by
      rw [h.linked_iff hb]
      refine forall₂_congr fun a ha => ?_
      have ham := h.wf.rooted.mem_of_anc hb ha
      refine notValid_eq_false.trans ?_
      rw [h.records.transactions a ham, or_iff_right_iff_imp]
      intro hroot
      rw [h.wf.rooted.eq_root ham hroot]
      exact (h.records.linked _ h.wf.rooted.root_mem h.genesis_linked).1
    rw [hlevels]
    exact not_not

/-- Levels from `BLOCK_VALID_CHAIN` on are reached from genesis upwards. -/
theorem level_of_anc {a : ι} (hanc : s.Anc a b) {level : BlockValidity}
    (hlevel : .chain ≤ level) (hle : level ≤ (s.nStatus b).valid) :
    s.pprev a = none ∨ level ≤ (s.nStatus a).valid := by
  induction hanc with
  | refl => exact .inr hle
  | @tail c p hpath hstep ih =>
    have hcm := h.wf.rooted.mem_of_anc hb hpath
    by_cases hroot : p = v.hashGenesisBlock
    · exact .inl (hroot ▸ h.wf.rooted.root_parent)
    · rcases ih with hnone | hle
      · rw [hstep] at hnone
        cases hnone
      · exact .inr (h.records.chain c hcm p hstep hroot level hlevel hle)

theorem checkLevels : s.CheckLevels b (s.firsts b) := by
  have htree : s.firsts b .notTreeValid = none := by
    refine (firsts_eq_none h.wf hb).mpr fun a ha => notValid_eq_false.mpr (.inr ?_)
    exact h.records.tree a (h.wf.rooted.mem_of_anc hb ha)
  have hhigh : ∀ k level, .chain ≤ level → (∀ a, s.marked k a = s.notValid level a) →
      level ≤ (s.nStatus b).valid → s.firsts b k = none := by
    intro k level hlevel hk hle
    refine (firsts_eq_none h.wf hb).mpr fun a ha => ?_
    rw [hk a, notValid_eq_false]
    exact h.level_of_anc hb ha hlevel hle
  exact ⟨htree, fun _ => htree, hhigh _ .chain (by decide) fun _ => rfl,
    hhigh _ .stake (by decide) fun _ => rfl, hhigh _ .scripts (by decide) fun _ => rfl⟩

omit hb in
theorem listed_iff : s.foundInUnlinked b = true ↔ BlockIndex.Listed s.mapBlocksUnlinked b :=
  foundInUnlinked_iff fun e he => (h.waiting.entry e he).2.1

/-- A block with its data that is not worse than the tip is a candidate, unless it is listed. -/
theorem mem_or_listed (hlinked : s.Linked b) (hdata : s.HasData b)
    (hinv : ¬ s.Invalid b) (hle : s.workKey t ≤ s.workKey b) :
    b ∈ s.setBlockIndexCandidates ∨ BlockIndex.Listed s.mapBlocksUnlinked b := by
  rcases h.candidates.complete b hb hlinked hdata hinv hle with hmem | hlisted | hqueue
  · exact .inl hmem
  · exact .inr hlisted
  · cases hqueue

theorem checkCandidate : s.CheckCandidate b (s.firsts b) := by
  unfold CheckCandidate
  split_ifs with hgood
  all_goals rw [h.active.notWorseThanTip_iff h.wf, h.neverProcessed_iff hb] at hgood
  · rw [not_invalid_iff h.wf hb, not_missing_iff h.wf hb, h.active.tip_eq h.wf]
    rintro hinv (hdata | htip)
    · refine (h.mem_or_listed hb hgood.2 (hdata b (.refl b)) hinv hgood.1).resolve_right ?_
      intro hlisted
      obtain ⟨a, ha, -, hmissing⟩ := h.exists_missing hb hlisted
      exact hmissing (hdata a ha)
    · exact some.inj htip ▸ h.candidates.top_mem
  · intro hmem
    obtain ⟨-, hlinked, hle⟩ := h.candidates.mem b hmem
    exact hgood ⟨hle, hlinked⟩

theorem checkUnlinked (hunlinked : s.Unlinked s.mapBlocksUnlinked []) :
    s.CheckUnlinked b (s.firsts b) := by
  have hfalse : s.foundInUnlinked b = false ↔ ¬ BlockIndex.Listed s.mapBlocksUnlinked b := by
    rw [← Bool.not_eq_true, h.listed_iff]
  rw [checkUnlinked_iff, hfalse, h.listed_iff, Ne, Ne, Ne, not_invalid_iff h.wf hb,
    not_missing_iff h.wf hb,
    h.neverProcessed_iff hb, h.active.notWorseThanTip_iff h.wf]
  refine ⟨?_, ?_, ?_, ?_⟩
  · rintro ⟨-, hdata, hnot, hinv⟩
    rcases hunlinked.waits b hb (h.records.data b hb hdata) hnot with hlisted | hqueue | ⟨p, hp, hpf, -⟩
    · exact hlisted
    · cases hqueue
    · -- the parent has failed, so the block is invalid
      exact absurd ((h.records.failed p (h.wf.rooted.mem_parent hb hp) hpf).of_anc
        (.of_parent hp)) hinv
  · rintro hnodata ⟨p, hp⟩
    exact Bool.false_ne_true (hnodata.symm.trans (h.waiting.entry _ hp).2.2)
  · intro hdata hlisted
    obtain ⟨a, ha, -, hmissing⟩ := h.exists_missing hb hlisted
    exact hmissing (hdata a ha)
  · rintro ⟨-, hdata, hlinked, hmissing⟩
    refine ⟨?_, ?_⟩
    · -- only pruning takes data away from a linked block
      by_contra hpruned
      refine hmissing fun a ha => ?_
      exact h.unpruned (Bool.not_eq_true _ ▸ hpruned) a (h.wf.rooted.mem_of_anc hb ha)
        ((h.linked_iff hb).mp hlinked a ha)
    · rintro ⟨hle, hcand, hinv⟩
      exact (h.mem_or_listed hb hlinked hdata hinv hle).resolve_left hcand

omit hb in
/-- No assertion fails. -/
theorem checkBlockIndex (hunlinked : s.Unlinked s.mapBlocksUnlinked []) :
    s.checkBlockIndex v = true := by
  refine (checkBlockIndex_iff h.wf h.active).mpr fun b hb => ⟨fun hroot => ?_, h.checkData hb,
    ⟨rfl, fun p hp => (h.wf.work b hb p hp).le, ?_⟩, h.checkLevels hb, fun hinv => ?_,
    h.checkCandidate hb, h.checkUnlinked hb hunlinked⟩
  · obtain rfl := h.wf.rooted.eq_root hb hroot
    refine ⟨rfl, ?_⟩
    rw [head?_eq_getElem?, h.active.vChain_eq]
    exact (h.wf.rooted.reverse_lineage_getElem? h.active.mem 0).mpr
      ⟨h.wf.rooted.root_anc h.active.mem, h.wf.rooted.root_height⟩
  · by_cases hroot : b = v.hashGenesisBlock
    · rw [hroot, show s.nHeight v.hashGenesisBlock = 0 from h.wf.rooted.root_height]
      exact .inl (by decide)
    · obtain ⟨skip, hskip, -, hheight⟩ := h.wf.skip b hb hroot
      obtain ⟨p, -, -, hpos⟩ := h.wf.rooted.exists_parent b hb hroot
      refine .inr ⟨skip, hskip, ?_⟩
      rw [hheight]
      exact getSkipHeight_lt (by omega)
  · refine Bool.not_eq_true _ ▸ fun hf => ?_
    exact (not_invalid_iff h.wf hb).mp hinv (h.records.failed b hb hf)

end Kept

/-! ## From the assertions to the bookkeeping -/

/-- What `CheckBlockIndex` does not look at: the shape behind the skip pointers and the active chain,
that the active chain has been connected and would be again, and what the blocks in
`mapBlocksUnlinked` wait for. -/
structure Grounded (v : Validator ι) (s : BlockTree ι) (t : ι) : Prop where
  wf : s.WellFormed v.hashGenesisBlock
  active : s.Active t
  connected : ∀ b, s.Anc b t → s.Connected v b
  linked : s.Linked t
  known : ∀ c ∈ s.setBlockIndexCandidates, c ∈ s.mapBlockIndex
  entry : ∀ e ∈ s.mapBlocksUnlinked, e.2 ∈ s.mapBlockIndex ∧ s.pprev e.2 = some e.1
  off : ∀ e ∈ s.mapBlocksUnlinked, ¬ s.Anc e.1 t
  cause : ∀ e ∈ s.mapBlocksUnlinked,
    ¬ s.HasData e.1 ∨ BlockIndex.Listed s.mapBlocksUnlinked e.1 ∨ s.Orphaned e.1

namespace Grounded

variable (h : s.Grounded v t)
  (hpass : ∀ b ∈ s.mapBlockIndex, s.Passes v b (s.firsts b) (s.nHeight b))

include h hpass

theorem linked_iff (hb : b ∈ s.mapBlockIndex) : s.Linked b ↔ ∀ a, s.Anc a b → s.nTx a ≠ 0 := by
  have hcount := (hpass b hb).data.processed
  have hnone := firsts_eq_none h.wf hb (k := .neverProcessed)
  unfold BlockIndex.Linked
  rw [Ne, ← hcount, not_not, hnone]
  exact forall₂_congr fun a _ => decide_eq_false_iff_not

theorem linked_of_anc {a : ι} (hb : b ∈ s.mapBlockIndex) (hlinked : s.Linked b) (hanc : s.Anc a b) :
    s.Linked a :=
  (h.linked_iff hpass (h.wf.rooted.mem_of_anc hb hanc)).mpr fun c hc =>
    (h.linked_iff hpass hb).mp hlinked c (hc.trans hanc)

omit h in
theorem data_nTx (hb : b ∈ s.mapBlockIndex) (hdata : s.HasData b) : s.nTx b ≠ 0 := by
  have hcheck := (hpass b hb).data.data
  split_ifs at hcheck with hpruned
  · exact pos_iff_ne_zero.mp (hcheck hdata)
  · intro hzero
    exact Bool.false_ne_true ((hcheck.1.mpr hzero).symm.trans hdata)

theorem records : s.Records v.hashGenesisBlock := by
  have htransactions : ∀ b ∈ s.mapBlockIndex, .transactions ≤ (s.nStatus b).valid ↔ s.nTx b ≠ 0 :=
    fun b hb => (hpass b hb).data.transactions.trans pos_iff_ne_zero
  refine ⟨fun b hb => ?_, htransactions, fun b hb p hp hne level hlevel hle => ?_,
    fun b hb => (hpass b hb).data.undo, fun b hb => data_nTx hpass hb, fun b hb hlinked => ?_,
    fun b hb hnot => (hpass b hb).data.sequence (not_not.mp hnot), fun b hb hf => ?_⟩
  · by_cases hroot : b = v.hashGenesisBlock
    · -- the level of genesis is known from its transactions
      have hlinked := h.linked_of_anc hpass h.active.mem h.linked (h.wf.rooted.root_anc h.active.mem)
      have htx := (h.linked_iff hpass h.wf.rooted.root_mem).mp hlinked _ (.refl _)
      exact hroot ▸ le_trans (by decide) ((htransactions _ h.wf.rooted.root_mem).mpr htx)
    · have hnone := (firsts_eq_none h.wf hb).mp (hpass b hb).levels.all b (.refl b)
      refine (notValid_eq_false.mp hnone).resolve_left fun hprev => ?_
      exact hroot (h.wf.rooted.eq_root hb hprev)
  · have hpm := h.wf.rooted.mem_parent hb hp
    have hanc : s.Anc p b := .of_parent hp
    have hlevels := (hpass b hb).levels
    -- the parent is among the blocks that have reached the level
    have hmarked : s.notValid level p = false := by
      cases level with
      | chain => exact (firsts_eq_none h.wf hb).mp (hlevels.chain hle) p hanc
      | stake => exact (firsts_eq_none h.wf hb).mp (hlevels.stake hle) p hanc
      | scripts => exact (firsts_eq_none h.wf hb).mp (hlevels.scripts hle) p hanc
      | _ => exact absurd hlevel (by decide)
    refine (notValid_eq_false.mp hmarked).resolve_left fun hprev => ?_
    exact hne (h.wf.rooted.eq_root hpm hprev)
  · exact ⟨(h.linked_iff hpass hb).mp hlinked b (.refl b), fun p hp =>
      h.linked_of_anc hpass hb hlinked (.of_parent hp)⟩
  · by_contra hinv
    have hnot := (hpass b hb).failed ((not_invalid_iff h.wf hb).mpr hinv)
    exact Bool.false_ne_true (hnot.symm.trans hf)

omit h in
theorem unpruned (hpruned : s.fHavePruned = false) (hb : b ∈ s.mapBlockIndex) (htx : s.nTx b ≠ 0) :
    s.HasData b := by
  have hcheck := (hpass b hb).data.data
  rw [if_neg (Bool.not_eq_true _ ▸ hpruned)] at hcheck
  by_contra hnodata
  exact htx (hcheck.1.mp (Bool.not_eq_true _ ▸ hnodata))

omit hpass in
theorem listed_iff : s.foundInUnlinked b = true ↔ BlockIndex.Listed s.mapBlocksUnlinked b :=
  foundInUnlinked_iff fun e he => (h.entry e he).2

theorem waiting : s.Waiting s.mapBlocksUnlinked t [] := by
  refine ⟨fun e he => ⟨(h.entry e he).1, (h.entry e he).2, ?_⟩, h.off, fun e he => ?_,
    fun b hb htx hparent => .inl ?_⟩
  · by_contra hdata
    have hnot := (hpass e.2 (h.entry e he).1).unlinked.data (Bool.not_eq_true _ ▸ hdata)
    exact Bool.false_ne_true (hnot.symm.trans (h.listed_iff.mpr ⟨e.1, he⟩))
  · rcases h.cause e he with hdata | hlisted | horphaned
    · exact .inl hdata
    · exact .inr (.inl hlisted)
    · exact .inr (.inr (.inr horphaned))
  · refine (h.linked_iff hpass hb).mpr fun a ha => ?_
    rcases Lineage.anc_iff.mp ha with rfl | ⟨p, hp, hap⟩
    · exact htx
    · exact (h.linked_iff hpass (h.wf.rooted.mem_parent hb hp)).mp (hparent p hp) a hap

theorem candidates : s.Candidates v s.setBlockIndexCandidates s.mapBlocksUnlinked t t [] := by
  have hnever : ∀ b ∈ s.mapBlockIndex, s.firsts b .neverProcessed = none ↔ s.Linked b := by
    intro b hb
    rw [h.linked_iff hpass hb, firsts_eq_none h.wf hb]
    exact forall₂_congr fun a _ => decide_eq_false_iff_not
  have hcheck : ∀ b ∈ s.mapBlockIndex, s.CheckCandidate b (s.firsts b) := fun b hb =>
    (hpass b hb).candidate
  have htip : ¬ s.Invalid t := by
    rintro ⟨a, hanc, ha⟩
    exact (h.connected a hanc).not_failed (.of_failedValid ha)
  -- what the check says of a linked block that is not worse than the tip
  have hgood : ∀ b ∈ s.mapBlockIndex, s.Linked b → ¬ s.Invalid b → s.workKey t ≤ s.workKey b →
      s.firsts b .missing = none ∨ s.tip = some b → b ∈ s.setBlockIndexCandidates := by
    intro b hb hlinked hinv hle
    have hc := hcheck b hb
    unfold CheckCandidate at hc
    rw [if_pos ⟨(h.active.notWorseThanTip_iff h.wf).mpr hle, (hnever b hb).mpr hlinked⟩] at hc
    exact hc ((not_invalid_iff h.wf hb).mpr hinv)
  refine ⟨fun c hc => ?_, ?_, fun a ha hoff => absurd ha hoff, fun b hb hlinked hdata hinv hle => ?_⟩
  · have hcm := h.known c hc
    have hcand := hcheck c hcm
    unfold CheckCandidate at hcand
    split_ifs at hcand with hgood
    · exact ⟨hcm, (hnever c hcm).mp hgood.2, (h.active.notWorseThanTip_iff h.wf).mp hgood.1⟩
    · exact absurd hc hcand
  · exact hgood t h.active.mem h.linked htip le_rfl (.inr (h.active.tip_eq h.wf))
  · by_cases hmem : b ∈ s.setBlockIndexCandidates
    · exact .inl hmem
    · refine .inr (.inl (h.listed_iff.mp ?_))
      have hmissing : s.firsts b .missing ≠ none := fun hnone =>
        hmem (hgood b hb hlinked hinv hle (.inl hnone))
      -- a block that is not genesis, since genesis has all its data
      have hprev : s.pprev b ≠ none := by
        intro hprev
        obtain rfl := h.wf.rooted.eq_root hb hprev
        refine hmissing ((not_missing_iff h.wf hb).mpr fun a ha => ?_)
        rwa [(Lineage.anc_iff_of_none hprev).mp ha]
      exact ((hpass b hb).unlinked.pruned ⟨hprev, hdata, (hnever b hb).mpr hlinked, hmissing⟩).2
        ⟨(h.active.notWorseThanTip_iff h.wf).mpr hle, hmem, (not_invalid_iff h.wf hb).mpr hinv⟩

end Grounded

theorem Kept.grounded (h : s.Kept v t t []) : s.Grounded v t where
  wf := h.wf
  active := h.active
  connected := h.connected
  linked := h.linked
  known := fun c hc => (h.candidates.mem c hc).1
  entry := fun e he => ⟨(h.waiting.entry e he).1, (h.waiting.entry e he).2.1⟩
  off := h.waiting.off
  cause := by
    intro e he
    rcases h.waiting.cause e he with hd | hl | hq | ho
    · exact .inl hd
    · exact .inr (.inl hl)
    · cases hq
    · exact .inr (.inr ho)

/-- A tree that passes `CheckBlockIndex` and is grounded is as the bookkeeping has it. -/
theorem Grounded.kept (h : s.Grounded v t) (hcheck : s.checkBlockIndex v = true) : s.Kept v t t [] := by
  have hpass := (checkBlockIndex_iff h.wf h.active).mp hcheck
  exact ⟨h.wf, h.records hpass, fun hpruned b hb htx => unpruned hpass hpruned hb htx,
    h.waiting hpass, h.active, h.connected, h.linked, h.candidates hpass, le_rfl⟩

end BlockTree

end Chratos
