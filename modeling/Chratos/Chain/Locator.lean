import Chratos.Chain.BlockTree

/-!
# Chratos — block locators (`chain.cpp`, `main.cpp`)

A node names its branch by the hashes of a few of its blocks: the last dozen one by one, then at
distances that double. The receiver answers from the first of them on its active chain.
-/

namespace Chratos

namespace BlockTree

variable {ι : Type}

/-- The loop of `CChain::GetLocator`, with `size` hashes in `vHave`. The height drops in every round; a
step that no longer fits an `int` is never taken. -/
def locatorLoop [DecidableEq ι] (s : BlockTree ι) : Nat → Nat → Nat → Option ι → List ι
  | 0, _, _, _ => []
  | _ + 1, _, _, none => []
  | n + 1, size, nStep, some pindex =>
    pindex ::
      -- stop when genesis has been added
      if s.nHeight pindex = 0 then []
      else
        let nHeight := s.nHeight pindex - nStep
        s.locatorLoop n (size + 1) (if 10 < size + 1 then nStep * 2 else nStep)
          (if s.contains pindex then s.vChain[nHeight]? else s.getAncestor pindex nHeight)

/-- `CChain::GetLocator`. -/
def getLocator [DecidableEq ι] (s : BlockTree ι) (pindex : Option ι) : List ι :=
  let start := pindex <|> s.tip
  s.locatorLoop (start.elim 0 s.nHeight + 1) 0 1 start

/-- `FindForkInGlobalIndex`; an empty chain has height -1, where no block has an ancestor. -/
def findForkInGlobalIndex [DecidableEq ι] (s : BlockTree ι) : List ι → Option ι
  | [] => s.vChain.head?
  | hash :: vHave =>
    if hash ∈ s.mapBlockIndex then
      if s.contains hash then some hash
      else if (if s.vChain = [] then none else s.getAncestor hash (s.vChain.length - 1)) =
        s.tip then s.tip
      else s.findForkInGlobalIndex vHave
    else s.findForkInGlobalIndex vHave

/-- `f` is the last block that two branches share. -/
structure LastCommon (s : BlockTree ι) (b t f : ι) : Prop where
  left : s.Anc f b
  right : s.Anc f t
  last : ∀ a, s.Anc a b → s.Anc a t → s.Anc a f

section

variable [DecidableEq ι] {s s' : BlockTree ι} {genesis t t' b f : ι} (hwf : s.WellFormed genesis)
  (hact : s.Active t)

include hwf hact

/-- Either way the loop goes to the ancestor of the height it has computed. -/
theorem locatorLoop_next {w : ι} (hw : w ∈ s.mapBlockIndex) {n : Nat} (hle : n ≤ s.nHeight w) :
    ∃ a, (if s.contains w then s.vChain[n]? else s.getAncestor w n) = some a ∧ s.Anc a w ∧
      s.nHeight a = n := by
  obtain ⟨a, ha, hanc, rfl⟩ := hwf.getAncestor_spec hw hle
  refine ⟨a, ?_, hanc, rfl⟩
  split_ifs with hcont
  · have hwt := (hact.contains_iff hwf).mp hcont
    have hin := (hact.contains_iff hwf).mpr (hanc.trans hwt)
    rwa [contains, beq_iff_eq] at hin
  · exact ha

variable (htree : s'.toHeaderTree = s.toHeaderTree) (hact' : s'.Active t') (hb : b ∈ s.mapBlockIndex)
  (hf : s.LastCommon b t' f)

include htree hact' hb hf

/-- The search among the hashes of a round of the loop and of those after it. A step is no longer than
the way that has been gone, so the first block at or below the fork is close to it. -/
theorem findForkInGlobalIndex_locatorLoop : ∀ n size nStep w, s.Anc w b → s.nHeight w < n →
      (0 < s.nHeight w → nStep ≤ s.nHeight b - s.nHeight w + 1) → 0 < nStep →
      (s.nHeight w ≤ s.nHeight f → 2 * s.nHeight f ≤ s.nHeight b + s.nHeight w) →
      ∃ r, s'.findForkInGlobalIndex (s.locatorLoop n size nStep (some w)) = some r ∧ s.Anc r f ∧
        2 * s.nHeight f ≤ s.nHeight b + s.nHeight r := by
  have hwf' : s'.WellFormed genesis := htree ▸ hwf
  have hanc' : s'.Anc = s.Anc := by rw [htree]
  have hmem : ∀ {a}, s.Anc a b → a ∈ s.mapBlockIndex := fun ha => hwf.rooted.mem_of_anc hb ha
  have hfle := hwf.rooted.height_le hb hf.left
  intro n
  induction n with
  | zero =>
    intro _ _ w _ hn
    omega
  | succ n ih =>
    intro size nStep w hw hn hstep hpos hclose
    have hcont : s'.contains w = true ↔ s.Anc w t' := by rw [hact'.contains_iff hwf', hanc']
    unfold locatorLoop findForkInGlobalIndex
    rw [if_pos (htree ▸ hmem hw)]
    by_cases hwt : s.Anc w t'
    · have hwf' := hf.last w hw hwt
      rw [if_pos (hcont.mpr hwt)]
      exact ⟨w, rfl, hwf', hclose (hwf.rooted.height_le (hmem hf.left) hwf')⟩
    · have hlen := hact'.length_vChain hwf'
      rw [if_neg (mt hcont.mp hwt), if_neg (List.ne_nil_of_length_pos (by omega)),
        hact'.tip_eq hwf', hlen,
        Nat.add_sub_cancel]
      by_cases htip : s'.getAncestor w (s'.nHeight t') = some t'
      · -- the block is above the tip, which then is the fork
        have hanc := (hwf'.getAncestor_eq_some_iff (htree ▸ hmem hw)).mp htip
        rw [hanc'] at hanc
        have htf := hf.last t' (hanc.trans hw) (.refl t')
        have := hwf.rooted.height_le (htree ▸ hact'.mem) hf.right
        exact ⟨t', if_pos htip, htf, by omega⟩
      · have hfw : s.nHeight f < s.nHeight w := by
          by_contra hle
          rcases Lineage.Anc.total hw hf.left with hwf | hfw
          · exact hwt (hwf.trans hf.right)
          · exact hwt (hwf.rooted.eq_of_anc_of_height_le (hmem hw) hfw (by omega) ▸ hf.right)
        rw [if_neg htip, if_neg (by omega)]
        obtain ⟨a, ha, hanc, hah⟩ :=
          locatorLoop_next hwf hact (hmem hw) (Nat.sub_le (s.nHeight w) nStep)
        have hwb := hwf.rooted.height_le hb hw
        dsimp only
        rw [ha]
        refine ih _ _ a (hanc.trans hw) (by omega) ?_ ?_ (by omega)
        · intro _
          split_ifs <;> omega
        · split_ifs <;> omega

end

/-- Two nodes that know the same blocks: the receiver of a locator for `b` finds a block at least as
close to the fork as `b` is. -/
theorem findForkInGlobalIndex_close [DecidableEq ι] {s s' : BlockTree ι} {genesis t t' b f : ι}
    (hwf : s.WellFormed genesis) (hact : s.Active t) (htree : s'.toHeaderTree = s.toHeaderTree)
    (hact' : s'.Active t') (hb : b ∈ s.mapBlockIndex) (hf : s.LastCommon b t' f) :
    ∃ r, s'.findForkInGlobalIndex (s.getLocator (some b)) = some r ∧ s.Anc r b ∧ s.Anc r t' ∧
      s.nHeight r ≤ s.nHeight f ∧ s.nHeight f ≤ s.nHeight b ∧
      s.nHeight f - s.nHeight r ≤ s.nHeight b - s.nHeight f := by
  have hfle := hwf.rooted.height_le hb hf.left
  obtain ⟨r, hr, hrf, hclose⟩ := findForkInGlobalIndex_locatorLoop hwf hact htree hact' hb hf
    (s.nHeight b + 1) 0 1 b (.refl b) (Nat.lt_succ_self _) (by omega) one_pos (by omega)
  have hrle := hwf.rooted.height_le (hwf.rooted.mem_of_anc hb hf.left) hrf
  exact ⟨r, hr, hrf.trans hf.left, hrf.trans hf.right, hrle, hfle, by omega⟩

/-- Two blocks above genesis; the active chain ends at `t`. -/
def twoBlocks (t : Nat) : BlockTree Nat where
  mapBlockIndex := [2, 1, 0]
  pprev b := if b = 0 then none else some (b - 1)
  pskip _ := some 0
  nHeight b := b
  nChainWork b := b
  vChain := List.range (t + 1)

theorem findForkInGlobalIndex_close_two : ∃ r, (twoBlocks 1).findForkInGlobalIndex
    ((twoBlocks 2).getLocator (some 2)) = some r ∧ r ≤ 1 ∧ 1 - r ≤ 2 - 1 := by
  have hroot : Lineage.Rooted (twoBlocks 2).pprev (twoBlocks 2).nHeight [2, 1, 0] 0 :=
    ⟨by decide, rfl, rfl, by decide⟩
  have hmem : ∀ b ∈ [2, 1, 0], (twoBlocks 2).Anc 0 b := fun b hb => hroot.root_anc hb
  have hwf : (twoBlocks 2).WellFormed 0 := by
    refine ⟨hroot, by decide, fun b hb hne => ⟨0, rfl, hmem b hb, ?_⟩, by decide⟩
    revert b
    decide
  have h21 : (twoBlocks 2).Anc 1 2 := .of_parent rfl
  have htip : (twoBlocks 2).Active 2 := ⟨by decide, by decide⟩
  have htip' : (twoBlocks 1).Active 1 := ⟨by decide, by decide⟩
  have hfork : (twoBlocks 2).LastCommon 2 1 1 := ⟨h21, .refl 1, fun a _ ha => ha⟩
  have htree : (twoBlocks 1).toHeaderTree = (twoBlocks 2).toHeaderTree := rfl
  obtain ⟨r, hr, -, -, hle, -, hclose⟩ :=
    findForkInGlobalIndex_close hwf htip htree htip' (by decide) hfork
  exact ⟨r, hr, hle, hclose⟩

end BlockTree

end Chratos
