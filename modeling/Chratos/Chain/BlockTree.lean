import Chratos.Chain.Work
import Chratos.Lib.Lineage
import Mathlib.Data.Prod.Lex
import Mathlib.Logic.Function.Iterate

/-!
# Chratos — the block tree (`chain.h`, `chain.cpp`, `main.cpp`)

Every header the node knows has a `CBlockIndex`, found in `mapBlockIndex` by its hash and pointing to
its parent. A block is written here as its pointer, of any type `ι` whose order is the order of the
addresses; hash and pointer determine each other, so one name serves for both. The fields of
`CBlockIndex` are kept as one function of the pointer each (`pprev`, `nHeight`, `nStatus` and so on),
so that a call which writes one of them visibly leaves the others alone.

Around the index stand the active chain `vChain`, the candidates for its tip
`setBlockIndexCandidates` and `mapBlocksUnlinked`, which lists under each parent the blocks that wait
for the parent's data. `std::set` is a list without order here: what the set yields in order is
computed from the comparator, whose verdict on two blocks does not change as long as their
`nSequenceId` do not.
-/

namespace Chratos

open Function Option List Lineage

variable {height : Nat}

/-! ## Status words -/

/-- The levels under `BLOCK_VALID_MASK`. -/
inductive BlockValidity where
  | unknown
  | header
  | tree
  | transactions
  | chain
  | stake
  | scripts
  deriving DecidableEq, Repr

def BlockValidity.toNat : BlockValidity → Nat
  | unknown => 0
  | header => 1
  | tree => 2
  | transactions => 3
  | chain => 4
  | stake => 5
  | scripts => 6

instance : LinearOrder BlockValidity :=
  LinearOrder.lift' BlockValidity.toNat (by intro a b; cases a <;> cases b <;> decide)

/-- `nStatus`, one field for `BLOCK_VALID_MASK` and one for each flag. -/
structure BlockStatus where
  valid : BlockValidity := .unknown
  haveData : Bool := false
  haveUndo : Bool := false
  failedValid : Bool := false
  failedChild : Bool := false
  deriving DecidableEq, Repr

namespace BlockStatus

/-- `nStatus & BLOCK_FAILED_MASK`. -/
def failed (st : BlockStatus) : Bool :=
  st.failedValid || st.failedChild

/-- `CBlockIndex::IsValid`. -/
def isValid (st : BlockStatus) (nUpTo : BlockValidity) : Bool :=
  !st.failed && decide (nUpTo ≤ st.valid)

/-- `CBlockIndex::RaiseValidity`: a failed block keeps its level. -/
def raiseValidity (st : BlockStatus) (nUpTo : BlockValidity) : BlockStatus :=
  if st.failed then st
  else if st.valid < nUpTo then { st with valid := nUpTo }
  else st

variable {st : BlockStatus} {nUpTo : BlockValidity}

@[simp]
theorem raiseValidity_haveData : (st.raiseValidity nUpTo).haveData = st.haveData := by
  unfold raiseValidity
  split_ifs <;> rfl

@[simp]
theorem raiseValidity_haveUndo : (st.raiseValidity nUpTo).haveUndo = st.haveUndo := by
  unfold raiseValidity
  split_ifs <;> rfl

@[simp]
theorem raiseValidity_failedValid : (st.raiseValidity nUpTo).failedValid = st.failedValid := by
  unfold raiseValidity
  split_ifs <;> rfl

@[simp]
theorem raiseValidity_failedChild : (st.raiseValidity nUpTo).failedChild = st.failedChild := by
  unfold raiseValidity
  split_ifs <;> rfl

@[simp]
theorem raiseValidity_failed : (st.raiseValidity nUpTo).failed = st.failed := by
  simp only [failed, raiseValidity_failedValid, raiseValidity_failedChild]

theorem raiseValidity_valid (h : st.failed = false) :
    (st.raiseValidity nUpTo).valid = max st.valid nUpTo := by
  unfold raiseValidity
  rw [h, if_neg Bool.false_ne_true]
  split
  · rename_i hlt
    exact (max_eq_right hlt.le).symm
  · rename_i hle
    exact (max_eq_left (not_lt.mp hle)).symm

theorem le_raiseValidity_valid : st.valid ≤ (st.raiseValidity nUpTo).valid := by
  unfold raiseValidity
  split_ifs with _ hlt
  · exact le_rfl
  · exact hlt.le
  · exact le_rfl

end BlockStatus

/-! ## The tree -/

/-- What a header says about its block, written once by `AddToBlockIndex`. -/
structure HeaderTree (ι : Type) where
  mapBlockIndex : List ι := []
  pprev : ι → Option ι := fun _ => none
  pskip : ι → Option ι := fun _ => none
  nHeight : ι → Nat := fun _ => 0
  nChainWork : ι → Nat := fun _ => 0

/-- With what is known about the data of each block. -/
structure BlockIndex (ι : Type) extends HeaderTree ι where
  nFile : ι → Nat := fun _ => 0
  nTx : ι → Nat := fun _ => 0
  nChainTx : ι → Nat := fun _ => 0
  nStatus : ι → BlockStatus := fun _ => {}
  nSequenceId : ι → Nat := fun _ => 0

/-- The block index and what is kept about it. -/
structure BlockTree (ι : Type) extends BlockIndex ι where
  vChain : List ι := []
  setBlockIndexCandidates : List ι := []
  mapBlocksUnlinked : List (ι × ι) := []
  /-- The next sequence id; the blocks loaded from disk have id 0. -/
  nBlockSequenceId : Nat := 1
  fHavePruned : Bool := false
  pindexBestInvalid : Option ι := none
  pindexBestHeader : Option ι := none

/-- Turn the lowest 1 bit into 0. -/
def invertLowestOne (n : Nat) : Nat :=
  n &&& (n - 1)

def getSkipHeight (height : Nat) : Nat :=
  if height < 2 then 0
  else if height % 2 = 1 then invertLowestOne (invertLowestOne (height - 1)) + 1
  else invertLowestOne height

theorem getSkipHeight_lt (h : 0 < height) : getSkipHeight height < height := by
  have hinvert : ∀ n, invertLowestOne n ≤ n - 1 := fun n => Nat.and_le_right
  unfold getSkipHeight
  split_ifs with hsmall hodd
  · exact h
  · have h1 := hinvert (height - 1)
    have h2 := hinvert (invertLowestOne (height - 1))
    omega
  · have := hinvert height
    omega

namespace HeaderTree

variable {ι : Type}

/-- What a loop over `pprev` meets, from a block to genesis. -/
def lineage (s : HeaderTree ι) (b : ι) : List ι :=
  Lineage.lineage s.pprev s.nHeight b

/-- `a` is `b` or one of its ancestors. -/
def Anc (s : HeaderTree ι) (a b : ι) : Prop :=
  Lineage.Anc s.pprev a b

theorem Anc.refl {s : HeaderTree ι} (b : ι) : s.Anc b b := Lineage.Anc.refl b

theorem Anc.of_parent {s : HeaderTree ι} {a b : ι} (h : s.pprev b = some a) : s.Anc a b :=
  Lineage.Anc.of_parent h

/-- The loop of `CBlockIndex::GetAncestor`, at `pindexWalk` of height `heightWalk`. -/
def ancestorWalk (s : HeaderTree ι) (height : Nat) : Nat → ι → Nat → Option ι
  | 0, pindexWalk, _ => some pindexWalk
  | n + 1, pindexWalk, heightWalk =>
    if heightWalk ≤ height then some pindexWalk
    else
      let heightSkip := getSkipHeight heightWalk
      let heightSkipPrev := getSkipHeight (heightWalk - 1)
      -- pskip is not followed if pprev->pskip is better than pskip->pprev
      let follow := heightSkip = height ∨
        (height < heightSkip ∧ ¬ (heightSkipPrev + 2 < heightSkip ∧ height ≤ heightSkipPrev))
      match s.pskip pindexWalk, s.pprev pindexWalk with
      | some skip, pprev =>
        if follow then s.ancestorWalk height n skip heightSkip
        else pprev.elim none fun p => s.ancestorWalk height n p (heightWalk - 1)
      | none, pprev => pprev.elim none fun p => s.ancestorWalk height n p (heightWalk - 1)

/-- `CBlockIndex::GetAncestor`. -/
def getAncestor (s : HeaderTree ι) (b : ι) (height : Nat) : Option ι :=
  if s.nHeight b < height then none
  else s.ancestorWalk height (s.nHeight b) b (s.nHeight b)

/-! ### The skip list -/

/-- Skip pointers that lead somewhere lead to the ancestor of the skip height. -/
def SkipsExact (s : HeaderTree ι) : Prop :=
  ∀ b ∈ s.mapBlockIndex, ∀ p a, s.pprev b = some p → s.pskip b = some a →
    s.Anc a b ∧ s.nHeight a = getSkipHeight (s.nHeight b)

section

variable {s : HeaderTree ι} {genesis a b : ι}
  (hrooted : Lineage.Rooted s.pprev s.nHeight s.mapBlockIndex genesis) (hskips : s.SkipsExact)

include hrooted

/-- What following `pprev` a number of times leads to. -/
def back (s : HeaderTree ι) (n : Nat) (b : ι) : Option ι := (·.bind s.pprev)^[n] (some b)

theorem back_of_anc (hb : b ∈ s.mapBlockIndex) (hanc : s.Anc a b) :
    s.back (s.nHeight b - s.nHeight a) b = some a := by
  revert hanc
  refine hrooted.induction ?_ ?_ b hb
  · intro hanc
    rw [(anc_iff_of_none hrooted.root_parent).mp hanc, Nat.sub_self]
    rfl
  · intro b p hb hp hprev ih hanc
    have hheight := hrooted.height_parent hb hprev
    rcases (anc_iff_of_parent hprev).mp hanc with rfl | hap
    · rw [Nat.sub_self]
      rfl
    · rw [hheight, Nat.succ_sub (hrooted.height_le hp hap), back, iterate_succ_apply,
        bind_some, hprev]
      exact ih hap

include hskips

/-- The walk stays on the way from the block to genesis and gets lower in every round. -/
theorem ancestorWalk_spec :
    ∀ n w, w ∈ s.mapBlockIndex → height ≤ s.nHeight w → s.nHeight w ≤ height + n →
      ∃ a, s.ancestorWalk height n w (s.nHeight w) = some a ∧ s.Anc a w ∧ s.nHeight a = height := by
  intro n
  induction n with
  | zero =>
    intro w _ hle hge
    exact ⟨w, rfl, .refl w, by omega⟩
  | succ n ih =>
    intro w hw hle hge
    unfold ancestorWalk
    split_ifs with hdone
    · exact ⟨w, rfl, .refl w, by omega⟩
    · have hne : w ≠ genesis := by
        rintro rfl
        have := hrooted.root_height
        omega
      obtain ⟨p, hp, hprev, hheightp⟩ := hrooted.exists_parent w hw hne
      have hback : ∃ a, s.ancestorWalk height n p (s.nHeight w - 1) = some a ∧ s.Anc a w ∧
          s.nHeight a = height := by
        obtain ⟨a, hwalk, hap, ha⟩ := ih p hp (by omega) (by omega)
        rw [hheightp, Nat.add_sub_cancel]
        exact ⟨a, hwalk, hap.trans (.of_parent hprev), ha⟩
      cases hskip : s.pskip w with
      | none => simpa only [hprev, elim_some] using hback
      | some k =>
        obtain ⟨hanc, hheight⟩ := hskips w hw p k hprev hskip
        have hlt : getSkipHeight (s.nHeight w) < s.nHeight w := getSkipHeight_lt (by omega)
        simp only [hprev, elim_some]
        split_ifs with hfollow
        · -- a skip is followed only if it does not pass the wanted height
          obtain ⟨a, hwalk, hak, ha⟩ := ih k (hrooted.mem_of_anc hw hanc) (by omega) (by omega)
          rw [hheight] at hwalk
          exact ⟨a, hwalk, hak.trans hanc, ha⟩
        · exact hback

theorem getAncestor_exact (hb : b ∈ s.mapBlockIndex) (hle : height ≤ s.nHeight b) :
    ∃ a, s.getAncestor b height = some a ∧ s.Anc a b ∧ s.nHeight a = height := by
  unfold getAncestor
  rw [if_neg (by omega)]
  exact ancestorWalk_spec hrooted hskips _ b hb hle (by omega)

variable [DecidableEq ι]

/-- `CBlockIndex::BuildSkip`. -/
def buildSkip (s : HeaderTree ι) (b : ι) : HeaderTree ι :=
  match s.pprev b with
  | none => s
  | some p => { s with pskip := update s.pskip b (s.getAncestor p (getSkipHeight (s.nHeight b))) }

omit hrooted hskips in
theorem buildSkip_kept (s : HeaderTree ι) (b : ι) :
    (s.buildSkip b).mapBlockIndex = s.mapBlockIndex ∧ (s.buildSkip b).pprev = s.pprev ∧
      (s.buildSkip b).nHeight = s.nHeight := by
  unfold buildSkip
  split <;> exact ⟨rfl, rfl, rfl⟩

theorem SkipsExact.buildSkip (b : ι) : (s.buildSkip b).SkipsExact := by
  unfold HeaderTree.buildSkip
  split
  · exact hskips
  · rename_i p hprev
    intro x hx q a hq ha
    dsimp only [Anc] at ha ⊢
    by_cases hxb : x = b
    · subst hxb
      rw [update_self] at ha
      have hheight := hrooted.height_parent hx hprev
      have hlt : getSkipHeight (s.nHeight x) < s.nHeight x := getSkipHeight_lt (by omega)
      have hle : getSkipHeight (s.nHeight x) ≤ s.nHeight p := by omega
      obtain ⟨k, hk, hanc, hah⟩ := getAncestor_exact hrooted hskips (hrooted.mem_parent hx hprev) hle
      rw [hk] at ha
      cases ha
      exact ⟨hanc.trans (.of_parent hprev), hah⟩
    · rw [update_of_ne hxb] at ha
      exact hskips x hx q a hq ha

omit hskips in
/-- Whatever the order in which the skips were built, `GetAncestor` is the way over `pprev`. -/
theorem getAncestor_eq_back (hnull : ∀ b, s.pskip b = none) (built : List ι) (hb : b ∈ s.mapBlockIndex)
    {h : Nat} (hle : h ≤ s.nHeight b) :
    ∃ a, (built.foldl HeaderTree.buildSkip s).getAncestor b h = some a ∧
      s.back (s.nHeight b - h) b = some a := by
  have hskips : s.SkipsExact := fun b _ _ a _ ha => by
    rw [hnull b] at ha
    cases ha
  clear hnull
  induction built generalizing s with
  | nil =>
    obtain ⟨a, ha, hanc, rfl⟩ := getAncestor_exact hrooted hskips hb hle
    exact ⟨a, ha, back_of_anc hrooted hb hanc⟩
  | cons c built ih =>
    obtain ⟨hmap, hprev, hheight⟩ := buildSkip_kept s c
    have h := ih (by rwa [hmap, hprev, hheight]) (by rwa [hmap]) (by rwa [hheight])
      (hskips.buildSkip hrooted c)
    rw [back, hprev, hheight] at h
    exact h

end

/-- Blocks one above the other. -/
def column (n : Nat) : HeaderTree Nat where
  mapBlockIndex := List.range (n + 1)
  pprev b := if b = 0 then none else some (b - 1)
  nHeight b := b

theorem getAncestor_eq_back_column :
    ∃ a, ([1, 2, 3].foldl buildSkip (column 3)).getAncestor 3 1 = some a ∧
      (column 3).back 2 3 = some a :=
  have hrooted : Lineage.Rooted (column 3).pprev (column 3).nHeight (column 3).mapBlockIndex 0 :=
    ⟨by decide, rfl, rfl, by decide⟩
  getAncestor_eq_back hrooted (fun _ => rfl) [1, 2, 3] (by decide) (by decide)

/-! ### Shape -/

/-- One tree with exact heights and skips, in which work grows. Only `AddToBlockIndex` has a say in
this. -/
structure WellFormed (s : HeaderTree ι) (genesis : ι) : Prop where
  rooted : Lineage.Rooted s.pprev s.nHeight s.mapBlockIndex genesis
  nodup : s.mapBlockIndex.Nodup
  skip : ∀ b ∈ s.mapBlockIndex, b ≠ genesis →
    ∃ a, s.pskip b = some a ∧ s.Anc a b ∧ s.nHeight a = getSkipHeight (s.nHeight b)
  work : ∀ b ∈ s.mapBlockIndex, ∀ p, s.pprev b = some p → s.nChainWork p < s.nChainWork b

namespace WellFormed

variable {s : HeaderTree ι} {genesis : ι} (hwf : s.WellFormed genesis)

include hwf

/-- `GetAncestor` finds the ancestor of each height up to the block's own. -/
theorem getAncestor_spec {b : ι} (hb : b ∈ s.mapBlockIndex) (hle : height ≤ s.nHeight b) :
    ∃ a, s.getAncestor b height = some a ∧ s.Anc a b ∧ s.nHeight a = height := by
  refine getAncestor_exact hwf.rooted ?_ hb hle
  intro w hw p a hp ha
  have hne : w ≠ genesis := by
    rintro rfl
    rw [hwf.rooted.root_parent] at hp
    cases hp
  obtain ⟨k, hskip, hanc, hheight⟩ := hwf.skip w hw hne
  rw [hskip] at ha
  cases ha
  exact ⟨hanc, hheight⟩

theorem getAncestor_eq_some_iff {a b : ι} (hb : b ∈ s.mapBlockIndex) :
    s.getAncestor b (s.nHeight a) = some a ↔ s.Anc a b := by
  constructor
  · intro hget
    have hle : s.nHeight a ≤ s.nHeight b := by
      by_contra hlt
      rw [HeaderTree.getAncestor, if_pos (not_le.mp hlt)] at hget
      cases hget
    obtain ⟨c, hc, hanc, -⟩ := hwf.getAncestor_spec hb hle
    exact some.inj (hc.symm.trans hget) ▸ hanc
  · intro hanc
    obtain ⟨c, hc, hcb, hheight⟩ := hwf.getAncestor_spec hb (hwf.rooted.height_le hb hanc)
    rw [hc, hwf.rooted.anc_unique hb hcb hanc hheight]

/-- Ancestors have less work. -/
theorem work_lt {a b : ι} (hb : b ∈ s.mapBlockIndex) (hanc : s.Anc a b) (hne : a ≠ b) :
    s.nChainWork a < s.nChainWork b := by
  revert hne hanc
  refine hwf.rooted.induction ?_ ?_ b hb
  · intro hanc hne
    exact absurd ((anc_iff_of_none hwf.rooted.root_parent).mp hanc) hne
  · intro b p hb _ hp ih hanc hne
    have hstep := hwf.work b hb p hp
    rcases (anc_iff_of_parent hp).mp hanc with heq | hap
    · exact absurd heq hne
    · by_cases heq : a = p
      · exact heq ▸ hstep
      · exact (ih hap heq).trans hstep

end WellFormed

end HeaderTree

/-! ## The order of candidates -/

namespace BlockIndex

variable {ι : Type} [LinearOrder ι]

/-- `CBlockIndexWorkComparator`: whether `pa` sorts before, that is worse than, `pb`. -/
def worse (s : BlockIndex ι) (pa pb : ι) : Bool :=
  if s.nChainWork pb < s.nChainWork pa then false
  else if s.nChainWork pa < s.nChainWork pb then true
  else if s.nSequenceId pa < s.nSequenceId pb then false
  else if s.nSequenceId pb < s.nSequenceId pa then true
  else if pa < pb then false
  else if pb < pa then true
  else false

/-- What the comparator compares: work, then the time of arrival, then the address. -/
def workKey (s : BlockIndex ι) (b : ι) : Nat ×ₗ Natᵒᵈ ×ₗ ιᵒᵈ :=
  toLex (s.nChainWork b, toLex (OrderDual.toDual (s.nSequenceId b), OrderDual.toDual b))

section

variable {s : BlockIndex ι} {a b : ι}

theorem worse_iff : s.worse a b = true ↔ s.workKey a < s.workKey b := by
  unfold worse workKey
  simp only [Prod.Lex.toLex_lt_toLex, OrderDual.toDual_lt_toDual, OrderDual.toDual_inj]
  split_ifs with h1 h2 h3 h4 h5 h6
  · simp only [false_iff]
    omega
  · simp only [true_iff]
    exact .inl h2
  · simp only [false_iff]
    omega
  · simp only [true_iff]
    exact .inr ⟨by omega, .inl h4⟩
  · simp only [false_iff, not_or, not_and]
    exact ⟨h2, fun _ => ⟨h4, fun _ => h5.not_gt⟩⟩
  · simp only [true_iff]
    exact .inr ⟨by omega, .inr ⟨by omega, h6⟩⟩
  · simp only [false_iff, not_or, not_and]
    exact ⟨h2, fun _ => ⟨h4, fun _ => h6⟩⟩

theorem worse_eq_false_iff : s.worse a b = false ↔ s.workKey b ≤ s.workKey a := by
  rw [← not_lt, ← worse_iff, Bool.not_eq_true]

theorem workKey_lt_of_work (h : s.nChainWork a < s.nChainWork b) : s.workKey a < s.workKey b := by
  unfold workKey
  rw [Prod.Lex.toLex_lt_toLex]
  exact .inl h

theorem work_le_of_workKey_le (h : s.workKey a ≤ s.workKey b) :
    s.nChainWork a ≤ s.nChainWork b := by
  by_contra hlt
  exact absurd h (not_le.mpr (workKey_lt_of_work (not_le.mp hlt)))

end

variable {s : BlockIndex ι} {genesis a b : ι} (hwf : s.WellFormed genesis)

include hwf

theorem workKey_lt (hb : b ∈ s.mapBlockIndex) (hanc : s.Anc a b) (hne : a ≠ b) :
    s.workKey a < s.workKey b :=
  workKey_lt_of_work (hwf.work_lt hb hanc hne)

theorem workKey_le (hb : b ∈ s.mapBlockIndex) (hanc : s.Anc a b) : s.workKey a ≤ s.workKey b := by
  by_cases heq : a = b
  · exact heq ▸ le_rfl
  · exact (workKey_lt hwf hb hanc heq).le

end BlockIndex

/-! ## The active chain -/

namespace BlockTree

variable {ι : Type}

section

variable [DecidableEq ι]

/-- Rewrite the status of one block. -/
def setStatus (s : BlockTree ι) (b : ι) (f : BlockStatus → BlockStatus) : BlockTree ι :=
  { s with nStatus := update s.nStatus b (f (s.nStatus b)) }

/-- `CChain::Tip`. -/
def tip (s : BlockTree ι) : Option ι :=
  s.vChain.getLast?

/-- `CChain::Contains`. -/
def contains (s : BlockTree ι) (b : ι) : Bool :=
  s.vChain[s.nHeight b]? == some b

/-- `CChain::SetTip`: entries are rewritten from the new tip down, as far as they differ. -/
def rewriteChain (s : BlockTree ι) : Nat → ι → List ι
  | 0, b => [b]
  | n + 1, b =>
    if s.contains b then s.vChain.take (s.nHeight b + 1)
    else (s.pprev b).elim [] (s.rewriteChain n) ++ [b]

def setTip (s : BlockTree ι) (pindex : Option ι) : BlockTree ι :=
  { s with vChain := pindex.elim [] fun b => s.rewriteChain (s.nHeight b + 1) b }

end

/-- `CChain::FindFork`: the last block of the active chain at or below `pindex`. -/
def findFork [DecidableEq ι] (s : BlockTree ι) (pindex : ι) : Option ι :=
  -- the height of an empty chain is -1, and no block has an ancestor there
  if s.vChain = [] then none
  else
    let start := if s.vChain.length - 1 < s.nHeight pindex
      then s.getAncestor pindex (s.vChain.length - 1) else some pindex
    start.elim none fun b => (s.lineage b).find? s.contains

section

variable [LinearOrder ι]

/-- Blocks are compared by the equality of their order. -/
instance lawfulBEq_block : LawfulBEq ι := inferInstance

/-! ## Headers -/

/-- What `AddToBlockIndex` reads of a header; the null hash names no block. -/
structure Header (ι : Type) where
  hash : ι
  hashPrevBlock : Option ι
  nBits : UInt32

section

variable (s : BlockTree ι)

/-- `AddToBlockIndex`. The fields are those of a fresh `CBlockIndex`, raised to `BLOCK_VALID_TREE`. -/
def addToBlockIndex (block : Header ι) : BlockTree ι :=
  if block.hash ∈ s.mapBlockIndex then s
  else
    let b := block.hash
    let pprev := block.hashPrevBlock.filter (· ∈ b :: s.mapBlockIndex)
    let nHeight := pprev.elim 0 fun p => s.nHeight p + 1
    let nChainWork := (pprev.elim 0 s.nChainWork + getBlockProof block.nBits) % 2 ^ 256
    { s with
      mapBlockIndex := b :: s.mapBlockIndex
      pprev := update s.pprev b pprev
      pskip := update s.pskip b
        (pprev.elim none fun p => s.getAncestor p (getSkipHeight nHeight))
      nHeight := update s.nHeight b nHeight
      nChainWork := update s.nChainWork b nChainWork
      nFile := update s.nFile b 0
      nTx := update s.nTx b 0
      nChainTx := update s.nChainTx b 0
      nStatus := update s.nStatus b (BlockStatus.raiseValidity {} .tree)
      nSequenceId := update s.nSequenceId b 0
      pindexBestHeader :=
        if s.pindexBestHeader.elim true fun best => s.nChainWork best < nChainWork then some b
        else s.pindexBestHeader }

/-! ## Block data -/

/-- The new position and status of a block whose data has been written to `file`. -/
def receiveData (b : ι) (nVtx file : Nat) : BlockTree ι :=
  { s with
    nTx := update s.nTx b (nVtx % 2 ^ 32)
    nChainTx := update s.nChainTx b 0
    nFile := update s.nFile b file
    nStatus := update s.nStatus b
      ({ s.nStatus b with haveData := true }.raiseValidity .transactions) }

/-- Whether a block is to become a candidate: it is not worse than the tip. -/
def notWorseThanTip (b : ι) : Bool :=
  s.tip.elim true fun t => !s.worse b t

/-- One block of the queue: its transactions are counted and it gets its sequence id. -/
def linkBlock (b : ι) : BlockTree ι :=
  let s' := { s with
    nChainTx := update s.nChainTx b (((s.pprev b).elim 0 s.nChainTx + s.nTx b) % 2 ^ 32)
    nSequenceId := update s.nSequenceId b s.nBlockSequenceId
    nBlockSequenceId := (s.nBlockSequenceId + 1) % 2 ^ 32 }
  if s'.notWorseThanTip b
  then { s' with setBlockIndexCandidates := s'.setBlockIndexCandidates.insert b }
  else s'

/-- `mapBlocksUnlinked.equal_range(b)`. -/
def unlinkedRange (b : ι) : List ι :=
  (s.mapBlocksUnlinked.filter (·.1 = b)).map Prod.snd

def eraseRange (b : ι) : BlockTree ι :=
  { s with mapBlocksUnlinked := s.mapBlocksUnlinked.filter (·.1 ≠ b) }

end

/-- The queue of `ReceivedBlockTransactions`. Each round takes one block off and moves entries of
`mapBlocksUnlinked` into it, so there are no more rounds than entries in both. -/
def linkQueue : Nat → List ι → BlockTree ι → BlockTree ι
  | 0, _, s => s
  | _ + 1, [], s => s
  | n + 1, b :: queue, s =>
    linkQueue n (queue ++ s.unlinkedRange b) ((s.linkBlock b).eraseRange b)

/-- `ReceivedBlockTransactions`, for a block of `nVtx` transactions. -/
def receivedBlockTransactions (s : BlockTree ι) (b : ι) (nVtx file : Nat) : BlockTree ι :=
  let s := s.receiveData b nVtx file
  match s.pprev b with
  | none => linkQueue (s.mapBlocksUnlinked.length + 1) [b] s
  | some p =>
    if s.nChainTx p ≠ 0 then linkQueue (s.mapBlocksUnlinked.length + 1) [b] s
    else if (s.nStatus p).isValid .tree
    then { s with mapBlocksUnlinked := s.mapBlocksUnlinked ++ [(p, b)] }
    else s

/-- Whether `PruneOneBlockFile` takes the data of a block away. A header without data is recorded in
file 0. -/
def inFile (s : BlockTree ι) (fileNumber : Nat) (b : ι) : Bool :=
  b ∈ s.mapBlockIndex ∧ s.nFile b = fileNumber

/-- `PruneOneBlockFile`, with the flag that `FlushStateToDisk` sets when it has pruned. The loop runs
over the index, and writes for each block of the file what belongs to that block only. -/
def pruneOneBlockFile (s : BlockTree ι) (fileNumber : Nat) : BlockTree ι :=
  { s with
    nStatus := fun b => if s.inFile fileNumber b
      then { s.nStatus b with haveData := false, haveUndo := false } else s.nStatus b
    nFile := fun b => if s.inFile fileNumber b then 0 else s.nFile b
    mapBlocksUnlinked := s.mapBlocksUnlinked.filter fun entry =>
      ¬ (s.inFile fileNumber entry.2 ∧ s.pprev entry.2 = some entry.1)
    fHavePruned := true }

end

/-! ## Headers keep the shape -/

variable {s : BlockTree ι} {genesis : ι}

/-- A header under a known parent keeps the shape, if its proof adds to the work. -/
theorem wellFormed_addToBlockIndex [LinearOrder ι] (hwf : s.WellFormed genesis) {block : Header ι}
    {p : ι} (hp : p ∈ s.mapBlockIndex) (hprev : block.hashPrevBlock = some p)
    (hwork : s.nChainWork p < (s.nChainWork p + getBlockProof block.nBits) % 2 ^ 256) :
    (s.addToBlockIndex block).WellFormed genesis := by
  unfold addToBlockIndex
  split_ifs with hknown
  · exact hwf
  · set b := block.hash with hb
    have hfilter : block.hashPrevBlock.filter (· ∈ b :: s.mapBlockIndex) = some p := by
      rw [hprev, filter_some, if_pos (by simpa using .inr hp)]
    simp only [hfilter, elim_some]
    have hold : ∀ x ∈ s.mapBlockIndex, x ≠ b := fun x hx heq => hknown (heq ▸ hx)
    have hgen := hold genesis hwf.rooted.root_mem
    -- old blocks keep their ancestors
    have hancestors : ∀ x ∈ s.mapBlockIndex, ∀ a,
        Lineage.Anc (update s.pprev b (some p)) a x ↔ s.Anc a x := by
      intro x hx a
      exact hwf.rooted.anc_congr (fun y hy => update_of_ne (hold y hy) _ _) hx
    have hskip : getSkipHeight (s.nHeight p + 1) ≤ s.nHeight p :=
      Nat.lt_succ_iff.mp (getSkipHeight_lt (Nat.succ_pos _))
    obtain ⟨k, hk, hkp, hkh⟩ := hwf.getAncestor_spec hp hskip
    refine ⟨⟨mem_cons_of_mem _ hwf.rooted.root_mem, ?_, ?_, ?_⟩, ?_, ?_, ?_⟩
    · dsimp only
      rw [update_of_ne hgen, hwf.rooted.root_parent]
    · dsimp only
      rw [update_of_ne hgen, hwf.rooted.root_height]
    · intro x hx hxg
      dsimp only
      by_cases hxb : x = b
      · refine ⟨p, mem_cons_of_mem _ hp, ?_, ?_⟩
        · rw [hxb, update_self]
        · rw [hxb, update_self, update_of_ne (hold p hp)]
      · have hxmem : x ∈ s.mapBlockIndex := (mem_cons.mp hx).resolve_left hxb
        obtain ⟨q, hq, hqprev, hqheight⟩ := hwf.rooted.exists_parent x hxmem hxg
        refine ⟨q, mem_cons_of_mem _ hq, ?_, ?_⟩
        · rw [update_of_ne hxb, hqprev]
        · rw [update_of_ne hxb, update_of_ne (hold q hq), hqheight]
    · exact nodup_cons.mpr ⟨hknown, hwf.nodup⟩
    · intro x hx hxg
      dsimp only [HeaderTree.Anc]
      by_cases hxb : x = b
      · subst hxb
        refine ⟨k, ?_, ?_, ?_⟩
        · rw [update_self, hk]
        · exact ((hancestors p hp k).mpr hkp).trans (.of_parent (update_self _ _ _))
        · rw [update_self, update_of_ne (hold k (hwf.rooted.mem_of_anc hp hkp)), hkh]
      · have hxmem : x ∈ s.mapBlockIndex := (mem_cons.mp hx).resolve_left hxb
        obtain ⟨a, ha, hanc, hah⟩ := hwf.skip x hxmem hxg
        refine ⟨a, ?_, (hancestors x hxmem a).mpr hanc, ?_⟩
        · rw [update_of_ne hxb, ha]
        · rw [update_of_ne hxb, update_of_ne (hold a (hwf.rooted.mem_of_anc hxmem hanc)), hah]
    · intro x hx q hq
      dsimp only at hq ⊢
      by_cases hxb : x = b
      · subst hxb
        rw [update_self, some.injEq] at hq
        rw [← hq, update_self, update_of_ne (hold p hp)]
        exact hwork
      · have hxmem : x ∈ s.mapBlockIndex := (mem_cons.mp hx).resolve_left hxb
        rw [update_of_ne hxb] at hq
        rw [update_of_ne hxb, update_of_ne (hold q (hwf.rooted.mem_parent hxmem hq))]
        exact hwf.work x hxmem q hq

/-! ## The active chain as a lineage -/

/-- The active chain leads to `t`. -/
structure Active (s : BlockTree ι) (t : ι) : Prop where
  mem : t ∈ s.mapBlockIndex
  vChain_eq : s.vChain = (s.lineage t).reverse

namespace Active

variable {s : BlockTree ι} {genesis t : ι} (hact : s.Active t) (hwf : s.WellFormed genesis)

include hact hwf

theorem length_vChain : s.vChain.length = s.nHeight t + 1 := by
  rw [hact.vChain_eq, length_reverse]
  exact hwf.rooted.length_lineage hact.mem

theorem tip_eq : s.tip = some t := by
  have hlen := hact.length_vChain hwf
  rw [tip, getLast?_eq_getElem?, hlen, hact.vChain_eq]
  exact (hwf.rooted.reverse_lineage_getElem? hact.mem _).mpr ⟨.refl t, rfl⟩

variable [DecidableEq ι] {b : ι}

theorem contains_iff : s.contains b = true ↔ s.Anc b t := by
  rw [contains, beq_iff_eq, hact.vChain_eq]
  exact (hwf.rooted.reverse_lineage_getElem? hact.mem _).trans (and_iff_left rfl)

theorem contains_genesis : s.contains genesis = true :=
  (hact.contains_iff hwf).mpr (hwf.rooted.root_anc hact.mem)

/-- `SetTip` rewrites the chain to the lineage of the new tip. -/
theorem setTip (hb : b ∈ s.mapBlockIndex) : (s.setTip (some b)).Active b := by
  refine ⟨hb, ?_⟩
  suffices hrewrite : ∀ n, s.nHeight b < n → s.rewriteChain n b = (s.lineage b).reverse from
    hrewrite _ (Nat.lt_succ_self _)
  have hkeep : ∀ b n, s.contains b = true → s.rewriteChain (n + 1) b = (s.lineage b).reverse := by
    intro b n hb
    rw [rewriteChain, if_pos hb, hact.vChain_eq]
    exact hwf.rooted.take_reverse_lineage hact.mem ((hact.contains_iff hwf).mp hb)
  refine hwf.rooted.induction ?_ ?_ b hb
  · intro n hn
    obtain ⟨m, rfl⟩ : ∃ m, n = m + 1 := ⟨n - 1, by omega⟩
    exact hkeep genesis m (hact.contains_genesis hwf)
  · intro b p hb _ hp ih n hn
    obtain ⟨m, rfl⟩ : ∃ m, n = m + 1 := ⟨n - 1, by omega⟩
    by_cases hcont : s.contains b = true
    · exact hkeep b m hcont
    · have hheight := hwf.rooted.height_parent hb hp
      rw [rewriteChain, if_neg hcont, hp, elim_some, ih m (by omega), HeaderTree.lineage,
        HeaderTree.lineage, hwf.rooted.lineage_of_parent hb hp, reverse_cons]

/-- `FindFork` returns the last common block. -/
theorem findFork_spec (hb : b ∈ s.mapBlockIndex) :
    ∃ f, s.findFork b = some f ∧ s.Anc f b ∧ s.Anc f t ∧
      ∀ a, s.Anc a b → s.Anc a t → s.Anc a f := by
  have hlen := hact.length_vChain hwf
  have hnil : s.vChain ≠ [] := by
    intro h
    rw [h] at hlen
    cases hlen
  -- every common block is at or below the block the search starts from
  obtain ⟨start, hstart, hsb, hbelow⟩ : ∃ start,
      (if s.vChain.length - 1 < s.nHeight b then s.getAncestor b (s.vChain.length - 1) else some b) =
        some start ∧ s.Anc start b ∧ ∀ a, s.Anc a b → s.Anc a t → s.Anc a start := by
    split_ifs with hhigh
    · obtain ⟨a, ha, hanc, hheight⟩ := hwf.getAncestor_spec hb hhigh.le
      refine ⟨a, ha, hanc, fun c hcb hct => ?_⟩
      have hle := hwf.rooted.height_le hact.mem hct
      rcases Lineage.Anc.total hcb hanc with hca | hac
      · exact hca
      · have := hwf.rooted.eq_of_anc_of_height_le (hwf.rooted.mem_of_anc hb hcb) hac (by omega)
        exact this ▸ .refl a
    · exact ⟨b, rfl, .refl b, fun a ha _ => ha⟩
  obtain ⟨f, hfind, hfs, hf, hmax⟩ := hwf.rooted.find?_lineage
    (hwf.rooted.mem_of_anc hb hsb) (hact.contains_genesis hwf)
  refine ⟨f, ?_, hfs.trans hsb, (hact.contains_iff hwf).mp hf, fun a hab hat =>
    hmax a (hbelow a hab hat) ((hact.contains_iff hwf).mpr hat)⟩
  unfold findFork
  rw [if_neg hnil]
  rw [hstart]
  exact hfind

end Active

theorem Active.notWorseThanTip_iff [LinearOrder ι] {t b : ι} (hact : s.Active t)
    (hwf : s.WellFormed genesis) : s.notWorseThanTip b = true ↔ s.workKey t ≤ s.workKey b := by
  unfold notWorseThanTip
  rw [hact.tip_eq hwf, elim_some, Bool.not_eq_true', BlockIndex.worse_eq_false_iff]

end BlockTree

end Chratos
