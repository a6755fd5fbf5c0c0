import Chratos.Consensus.Stake
import Chratos.Lib.LeadingBytes
import Mathlib.Algebra.Order.Ring.Int

/-!
# Chratos — targets stay in range (`main.cpp`: `GetNextTargetRequired`, `bignum.h`)

The target of the next block is that of the last block of its kind, times the time the last two of them
took, over the time they should have taken. It is cut to the limit of the kind and then to the three
leading bytes that the compact form has room for.
-/

namespace Chratos

open LeadingBytes Option List

variable {params : Consensus.Params} {q q' : Int} {chain : PrevChain}

/-! ## The compact form -/

variable {n : Nat} {chain' : PrevChain}

theorem byteLength_eq (fuel : Nat) (h : n < 256 ^ fuel) :
    byteLength fuel n = if n = 0 then 0 else Nat.log 256 n + 1 := by
  induction fuel generalizing n with
  | zero =>
    obtain rfl : n = 0 := by omega
    rfl
  | succ fuel ih =>
    rw [byteLength]
    by_cases hzero : n = 0
    · rw [if_pos hzero, if_pos hzero]
    · rw [if_neg hzero, if_neg hzero]
      have hdiv : n / 256 < 256 ^ fuel := by
        rw [Nat.div_lt_iff_lt_mul (by decide)]
        rwa [pow_succ] at h
      rw [ih hdiv]
      by_cases hone : n < 256
      · rw [if_pos (Nat.div_eq_of_lt hone), Nat.log_of_lt hone]
      · -- one byte less is one power less
        rw [if_neg (by omega), Nat.log_div_base]
        have hlog : 0 < Nat.log 256 n := Nat.log_pos (by decide) (by omega)
        omega

/-- The length in the code is that of the format. -/
theorem nSize_eq (h : n < 256 ^ 64) :
    (if 128 ≤ n / 256 ^ (byteLength 64 n - 1) then byteLength 64 n + 1 else byteLength 64 n) =
      mpiLength n := by
  rw [byteLength_eq 64 h]
  rfl

theorem mpiLength_le (h : n < 256 ^ 64) : mpiLength n ≤ 65 := by
  by_contra hlong
  have hle := le_of_mpiLength (n := n) (by omega)
  have hpow : 256 ^ 64 ≤ 256 ^ (mpiLength n - 2) := Nat.pow_le_pow_right (by decide) (by omega)
  omega

/-- The three leading bytes, of which the first is below 128. -/
theorem mantissa_lt (n : Nat) :
    (if mpiLength n ≤ 3 then n * 256 ^ (3 - mpiLength n) else n / 256 ^
      (mpiLength n - 3)) < 2 ^ 23 := by
  rcases eq_zero_or_pos n with rfl | hpos
  · decide
  have hlt := lt_of_mpiLength hpos
  have hlen := mpiLength_pos hpos
  split
  · rename_i hshort
    calc n * 256 ^ (3 - mpiLength n) < 128 * 256 ^ (mpiLength n - 1) * 256 ^ (3 - mpiLength n) :=
          Nat.mul_lt_mul_of_pos_right hlt (Nat.pow_pos (by decide))
      _ = 128 * 256 ^ 2 := by
          rw [mul_assoc, ← pow_add]
          congr 2
          omega
      _ = 2 ^ 23 := by decide
  · rename_i hlong
    rw [Nat.div_lt_iff_lt_mul (Nat.pow_pos (by decide))]
    calc n < 128 * 256 ^ (mpiLength n - 1) := hlt
      _ = 128 * 256 ^ 2 * 256 ^ (mpiLength n - 3) := by
          rw [mul_assoc, ← pow_add]
          congr 2
          omega
      _ = 2 ^ 23 * 256 ^ (mpiLength n - 3) := by norm_num

/-- A length and a mantissa are read back as they are written. -/
theorem setCompact_ofNat {nSize mantissa : Nat} (hsize : nSize < 256) (hmantissa : mantissa < 2 ^ 23) :
    setCompact (UInt32.ofNat (nSize * 2 ^ 24 + mantissa)) =
      ((if nSize ≤ 3 then mantissa / 256 ^ (3 - nSize) else mantissa * 256 ^
        (nSize - 3) : Nat) : Int) := by
  have hnat : (UInt32.ofNat (nSize * 2 ^ 24 + mantissa)).toNat = nSize * 2 ^ 24 + mantissa := by
    rw [UInt32.toNat_ofNat']
    exact Nat.mod_eq_of_lt (by omega)
  have hdiv : (nSize * 2 ^ 24 + mantissa) / 2 ^ 24 = nSize := by omega
  have hmod : (nSize * 2 ^ 24 + mantissa) % 2 ^ 23 = mantissa := by omega
  have hsign : ¬ 2 ^ 23 ≤ (nSize * 2 ^ 24 + mantissa) % 2 ^ 24 := by omega
  unfold setCompact
  simp only [hnat, hdiv, hmod]
  rw [if_neg hsign]

/-- **The compact form** of a number stands for its three leading bytes. -/
theorem setCompact_getCompact (h : n < 256 ^ 64) :
    setCompact (getCompact n) = (leading 3 n : Nat) := by
  have hcompact : getCompact n = UInt32.ofNat (mpiLength n * 2 ^ 24 +
      if mpiLength n ≤ 3 then n * 256 ^ (3 - mpiLength n) else n / 256 ^ (mpiLength n - 3)) := by
    unfold getCompact
    simp only [nSize_eq h]
  have hlen := mpiLength_le h
  rw [hcompact, setCompact_ofNat (by omega) (mantissa_lt n)]
  unfold leading
  by_cases hshort : mpiLength n ≤ 3
  · rw [if_pos hshort, if_pos hshort, Nat.mul_div_cancel _ (Nat.pow_pos (by decide)),
      Nat.sub_eq_zero_of_le hshort, pow_zero, Nat.div_one, mul_one]
  · rw [if_neg hshort, if_neg hshort]

/-! ## Cutting to the limit

Whatever the quotient is, the result is above zero and within the limit, and it grows with a quotient
above zero (`setCompact_cutTo`, `cutTo_mono`).
-/

/-- The last step: what is not above zero or beyond the limit is replaced by the limit. -/
def cutTo (bnTargetLimit : Nat) (bnNew : Int) : Nat :=
  if bnNew ≤ 0 ∨ bnTargetLimit < bnNew then bnTargetLimit else bnNew.toNat

section

variable {limit : Nat}

theorem cutTo_le (limit : Nat) (q : Int) : cutTo limit q ≤ limit := by
  unfold cutTo
  split
  · exact le_refl limit
  · omega

theorem cutTo_pos (hlimit : 0 < limit) (q : Int) : 0 < cutTo limit q := by
  unfold cutTo
  split
  · exact hlimit
  · omega

theorem cutTo_mono (hpos : 0 < q) (hle : q ≤ q') : cutTo limit q ≤ cutTo limit q' := by
  unfold cutTo
  split
  · rw [if_pos (by omega)]
  · split
    · omega
    · omega

/-- A compact target made this way is in range. -/
theorem setCompact_cutTo (hlimit : 0 < limit) (hlt : limit < 2 ^ 256) (q : Int) :
    0 < setCompact (getCompact (cutTo limit q)) ∧ setCompact (getCompact (cutTo limit q)) ≤ limit := by
  have hbound : cutTo limit q < 256 ^ 64 := by
    have := cutTo_le limit q
    omega
  rw [setCompact_getCompact hbound]
  constructor
  · exact_mod_cast leading_pos (by decide) (cutTo_pos hlimit q)
  · exact_mod_cast (leading_le 3 _).trans (cutTo_le limit q)

theorem setCompact_cutTo_mono (hlt : limit < 2 ^ 256) (hpos : 0 < q) (hle : q ≤ q') :
    setCompact (getCompact (cutTo limit q)) ≤ setCompact (getCompact (cutTo limit q')) := by
  have hcut := cutTo_le limit q
  have hcut' := cutTo_le limit q'
  rw [setCompact_getCompact (by omega), setCompact_getCompact (by omega)]
  exact_mod_cast leading_mono (by decide) (cutTo_mono hpos hle)

end

/-! ## The next target -/

/-- Parameters the retargeting makes sense with. -/
structure Consensus.Params.Retargets (params : Consensus.Params) : Prop where
  spacing_pos : 0 < params.nTargetSpacing
  interval : params.nTargetSpacing ≤ params.nTargetTimespan
  limit_pos : 0 < params.bnProofOfWorkLimit
  limit_lt : params.bnProofOfWorkLimit < 2 ^ 256

/-- The limit of a kind of blocks. -/
def targetLimit (params : Consensus.Params) (fProofOfStake : Bool) : Nat :=
  if fProofOfStake then bnProofOfStakeLimitV2 else params.bnProofOfWorkLimit

theorem bnProofOfStakeLimitV2_pos : 0 < bnProofOfStakeLimitV2 := by
  unfold bnProofOfStakeLimitV2
  norm_num

theorem bnProofOfStakeLimitV2_lt : bnProofOfStakeLimitV2 < 2 ^ 256 := by
  unfold bnProofOfStakeLimitV2
  norm_num

theorem Consensus.Params.Retargets.targetLimit_pos (h : params.Retargets) (fProofOfStake : Bool) :
    0 < targetLimit params fProofOfStake := by
  unfold targetLimit
  split
  · exact bnProofOfStakeLimitV2_pos
  · exact h.limit_pos

theorem Consensus.Params.Retargets.targetLimit_lt (h : params.Retargets) (fProofOfStake : Bool) :
    targetLimit params fProofOfStake < 2 ^ 256 := by
  unfold targetLimit
  split
  · exact bnProofOfStakeLimitV2_lt
  · exact h.limit_lt

/-- The entry's target is in range for its kind. -/
def CBlockIndex.InRange (params : Consensus.Params) (b : CBlockIndex) : Prop :=
  0 < setCompact b.nBits ∧ setCompact b.nBits ≤ targetLimit params b.fProofOfStake

/-- The last two entries of a kind above genesis, the later one first. -/
def lastTwo (fProofOfStake : Bool) (chain : PrevChain) : Option (CBlockIndex × CBlockIndex) :=
  match getLastBlockIndex fProofOfStake chain with
  | pindexPrev :: pprev :: below =>
    match getLastBlockIndex fProofOfStake (pprev :: below) with
    | pindexPrevPrev :: _ :: _ => some (pindexPrev, pindexPrevPrev)
    | _ => none
  | _ => none

variable {fProofOfStake : Bool} {prevs : CBlockIndex × CBlockIndex}

theorem lastTwo_eq_some (h : lastTwo fProofOfStake chain = some prevs) :
    ∃ pprev below rest, getLastBlockIndex fProofOfStake chain = prevs.1 :: pprev :: below ∧
      getLastBlockIndex fProofOfStake (pprev :: below) = prevs.2 :: rest := by
  unfold lastTwo at h
  split at h
  · rename_i pindexPrev pprev below hlast
    split at h
    · rename_i pindexPrevPrev next rest hbelow
      obtain rfl := some.inj h
      exact ⟨pprev, below, next :: rest, hlast, hbelow⟩
    · cases h
  · cases h

/-- The time between the last two entries of a kind. -/
def lastSpacing (fProofOfStake : Bool) (chain : PrevChain) : Option Int :=
  (lastTwo fProofOfStake chain).map fun prevs =>
    (prevs.1.nTime.toNat : Int) - (prevs.2.nTime.toNat : Int)

/-- The quotient of the retarget, for a target and a spacing. -/
def retargetQuotient (params : Consensus.Params) (nBits : UInt32) (nActualSpacing : Int) : Int :=
  let nInterval : Int := params.nTargetTimespan / params.nTargetSpacing
  (setCompact nBits * ((nInterval - 1) * params.nTargetSpacing + nActualSpacing + nActualSpacing)).tdiv
    ((nInterval + 1) * params.nTargetSpacing)

/-- The quotient a chain leads to, if it has two entries of the kind. A negative spacing is replaced. -/
def nextQuotient (params : Consensus.Params) (fProofOfStake : Bool) (chain : PrevChain) : Option Int :=
  (lastTwo fProofOfStake chain).map fun prevs =>
    let elapsed : Int := (prevs.1.nTime.toNat : Int) - (prevs.2.nTime.toNat : Int)
    retargetQuotient params prevs.1.nBits (if elapsed < 0 then params.nTargetSpacing else elapsed)

theorem getLastBlockIndex_ne_nil (h : chain ≠ []) : getLastBlockIndex fProofOfStake chain ≠ [] := by
  fun_induction getLastBlockIndex fProofOfStake chain with
  | case1 => exact h
  | case2 genesis => exact h
  | case3 pindex pprev rest _ ih => exact ih (cons_ne_nil _ _)
  | case4 pindex pprev rest _ => exact h

/-- **The next target** comes from the quotient, and is the limit without two entries of the kind. -/
theorem getNextTargetRequired_spec (params : Consensus.Params) (chain : PrevChain)
    (h : chain ≠ [] ∨ fProofOfStake = false) : getNextTargetRequired params chain fProofOfStake =
      some (getCompact (cutTo (targetLimit params fProofOfStake)
        ((nextQuotient params fProofOfStake chain).getD 0))) := by
  -- a quotient that is not above zero stands for the limit
  have hlimit : cutTo (targetLimit params fProofOfStake) 0 = targetLimit params fProofOfStake :=
    if_pos (.inl (le_refl 0))
  unfold getNextTargetRequired nextQuotient lastTwo
  cases hlast : getLastBlockIndex fProofOfStake chain with
  | nil =>
    have hkind : fProofOfStake = false :=
      h.resolve_left fun hne => getLastBlockIndex_ne_nil hne hlast
    rw [map_none, getD_none, hlimit, hkind]
    rfl
  | cons pindexPrev below =>
    cases below with
    | nil =>
      rfl
    | cons pprev below =>
      dsimp only
      cases hbelow : getLastBlockIndex fProofOfStake (pprev :: below) with
      | nil =>
        rfl
      | cons pindexPrevPrev rest =>
        cases rest with
        | nil =>
          rfl
        | cons _ _ => rfl

/-! ## Chains that differ in their times -/

/-- The same but for the time. -/
def CBlockIndex.AlikeButTime (a b : CBlockIndex) : Prop :=
  a.fProofOfStake = b.fProofOfStake ∧ a.nBits = b.nBits

theorem getLastBlockIndex_alike (fProofOfStake : Bool)
    (h : List.Forall₂ CBlockIndex.AlikeButTime chain chain') :
    List.Forall₂ CBlockIndex.AlikeButTime (getLastBlockIndex fProofOfStake chain)
      (getLastBlockIndex fProofOfStake chain') := by
  induction h with
  | nil => exact .nil
  | @cons a b as bs hab hrest ih =>
    cases hrest with
    | nil => exact .cons hab .nil
    | @cons c d cs ds hcd hmore =>
      rw [getLastBlockIndex, getLastBlockIndex, hab.1]
      split
      · exact ih
      · exact .cons hab (.cons hcd hmore)

theorem lastTwo_alike (h : List.Forall₂ CBlockIndex.AlikeButTime chain chain')
    {prevs' : CBlockIndex × CBlockIndex} (hprevs : lastTwo fProofOfStake chain = some prevs)
    (hprevs' : lastTwo fProofOfStake chain' = some prevs') : prevs.1.nBits = prevs'.1.nBits := by
  obtain ⟨pprev, below, rest, hlast, -⟩ := lastTwo_eq_some hprevs
  obtain ⟨pprev', below', rest', hlast', -⟩ := lastTwo_eq_some hprevs'
  have hsame := getLastBlockIndex_alike fProofOfStake h
  rw [hlast, hlast', forall₂_cons] at hsame
  exact hsame.1.2

/-! ## More time, easier target -/

theorem getLastBlockIndex_subset (fProofOfStake : Bool) (chain : PrevChain) :
    getLastBlockIndex fProofOfStake chain ⊆ chain := by
  fun_induction getLastBlockIndex fProofOfStake chain with
  | case1 => exact List.Subset.refl _
  | case2 genesis => exact List.Subset.refl _
  | case3 pindex pprev rest _ ih => exact subset_cons_of_subset _ ih
  | case4 pindex pprev rest _ => exact List.Subset.refl _

theorem lastTwo_mem (h : lastTwo fProofOfStake chain = some prevs) : prevs.1 ∈ chain := by
  obtain ⟨pprev, below, rest, hlast, -⟩ := lastTwo_eq_some h
  apply getLastBlockIndex_subset fProofOfStake chain
  rw [hlast]
  exact mem_cons_self

section

variable {nBits : UInt32} {s s' : Int}

/-- What multiplies the target is not negative, and what divides it is above zero. -/
theorem Consensus.Params.Retargets.factors (h : params.Retargets) (hs : 0 ≤ s) :
    0 ≤ ((params.nTargetTimespan / params.nTargetSpacing : Int) - 1) * params.nTargetSpacing + s + s ∧
      0 < ((params.nTargetTimespan / params.nTargetSpacing : Int) + 1) * params.nTargetSpacing := by
  have hspacing : (0 : Int) < params.nTargetSpacing := by exact_mod_cast h.spacing_pos
  have hinterval : (1 : Int) ≤ (params.nTargetTimespan / params.nTargetSpacing : Int) := by
    exact_mod_cast (Nat.one_le_div_iff h.spacing_pos).mpr h.interval
  constructor
  · have hmul := mul_nonneg (sub_nonneg.mpr hinterval) hspacing.le
    omega
  · exact mul_pos (by omega) hspacing

theorem retargetQuotient_nonneg (h : params.Retargets) (htarget : 0 < setCompact nBits) (hs : 0 ≤ s) :
    0 ≤ retargetQuotient params nBits s := by
  obtain ⟨hmul, hdiv⟩ := h.factors hs
  exact Int.tdiv_nonneg (mul_nonneg htarget.le hmul) hdiv.le

theorem retargetQuotient_mono (h : params.Retargets) (htarget : 0 < setCompact nBits) (hs : 0 ≤ s)
    (hle : s ≤ s') : retargetQuotient params nBits s ≤ retargetQuotient params nBits s' := by
  obtain ⟨hmul, hdiv⟩ := h.factors hs
  obtain ⟨hmul', -⟩ := h.factors (hs.trans hle)
  unfold retargetQuotient
  rw [Int.tdiv_eq_ediv_of_nonneg (mul_nonneg htarget.le hmul),
    Int.tdiv_eq_ediv_of_nonneg (mul_nonneg htarget.le hmul')]
  apply Int.ediv_le_ediv hdiv
  apply mul_le_mul_of_nonneg_left _ htarget.le
  omega

end

/-- **Targets stay in range**, and for two chains that differ in their times only, more time between the
last two blocks of the kind gives a target that is not smaller, unless the quotient for the shorter time
is zero. -/
theorem nextTarget_inRange_mono (h : params.Retargets) (fProofOfStake : Bool)
    (hrange : ∀ b ∈ chain, b.InRange params) :
    (chain ≠ [] ∨ fProofOfStake = false →
      ∃ nBits, getNextTargetRequired params chain fProofOfStake = some nBits ∧
        0 < setCompact nBits ∧ setCompact nBits ≤ targetLimit params fProofOfStake) ∧
    ∀ (chain' : PrevChain) (s s' : Int), List.Forall₂ CBlockIndex.AlikeButTime chain chain' →
      lastSpacing fProofOfStake chain = some s → lastSpacing fProofOfStake chain' = some s' →
      0 ≤ s → s ≤ s' → nextQuotient params fProofOfStake chain ≠ some 0 →
      ∃ nBits nBits', getNextTargetRequired params chain fProofOfStake = some nBits ∧
        getNextTargetRequired params chain' fProofOfStake = some nBits' ∧
        setCompact nBits ≤ setCompact nBits' := by
  constructor
  · intro hchain
    exact ⟨_, getNextTargetRequired_spec params chain hchain,
      setCompact_cutTo (h.targetLimit_pos fProofOfStake) (h.targetLimit_lt fProofOfStake) _⟩
  · intro chain' s s' halike hspacing hspacing' hs hle hquotient
    obtain ⟨prevs, hprevs, rfl⟩ := map_eq_some_iff.mp hspacing
    obtain ⟨prevs', hprevs', rfl⟩ := map_eq_some_iff.mp hspacing'
    have hmem := lastTwo_mem hprevs
    have hmem' := lastTwo_mem hprevs'
    refine ⟨_, _, getNextTargetRequired_spec params chain (.inl (ne_nil_of_mem hmem)),
      getNextTargetRequired_spec params chain' (.inl (ne_nil_of_mem hmem')), ?_⟩
    -- both spacings are taken as they are
    have htarget := (hrange prevs.1 hmem).1
    have hq : nextQuotient params fProofOfStake chain = some (retargetQuotient params prevs.1.nBits
        ((prevs.1.nTime.toNat : Int) - (prevs.2.nTime.toNat : Int))) := by
      unfold nextQuotient
      rw [hprevs, map_some]
      dsimp only
      rw [if_neg (not_lt.mpr hs)]
    have hq' : nextQuotient params fProofOfStake chain' = some (retargetQuotient params prevs.1.nBits
        ((prevs'.1.nTime.toNat : Int) - (prevs'.2.nTime.toNat : Int))) := by
      unfold nextQuotient
      rw [hprevs', map_some, lastTwo_alike halike hprevs hprevs']
      dsimp only
      rw [if_neg (not_lt.mpr (hs.trans hle))]
    rw [hq] at hquotient
    rw [hq, hq', getD_some, getD_some]
    have hpos : 0 < retargetQuotient params prevs.1.nBits
        ((prevs.1.nTime.toNat : Int) - (prevs.2.nTime.toNat : Int)) :=
      lt_of_le_of_ne (retargetQuotient_nonneg h htarget hs)
        fun hzero => hquotient (congrArg some hzero.symm)
    exact setCompact_cutTo_mono (h.targetLimit_lt fProofOfStake) hpos
      (retargetQuotient_mono h htarget hs hle)

theorem Consensus.Params.main_retargets : Consensus.Params.main.Retargets where
  spacing_pos := by decide
  interval := by decide
  limit_pos := by
    show 0 < 2 ^ 240 - 1
    norm_num
  limit_lt := by
    show 2 ^ 240 - 1 < 2 ^ 256
    norm_num

/-- Three blocks of proof of work, with this time between the last two. -/
def spacedChain (spacing : UInt32) : PrevChain :=
  [⟨3, 2, 1, 1000 + spacing, 0x1e0fffff, 0, 0, false, false, false, 0, 0⟩,
    ⟨2, 1, 1, 1000, 0x1e0fffff, 0, 0, false, false, false, 0, 0⟩,
    ⟨1, 0, 1, 0, 0x1e0fffff, 0, 0, false, false, false, 0, 0⟩]

theorem nextTarget_spacedChain : (∀ b ∈ spacedChain 100, b.InRange .main) ∧
    (∃ nBits, getNextTargetRequired .main (spacedChain 100) false = some nBits ∧
      0 < setCompact nBits ∧ setCompact nBits ≤ targetLimit .main false) ∧
    ∃ nBits nBits', getNextTargetRequired .main (spacedChain 100) false = some nBits ∧
      getNextTargetRequired .main (spacedChain 200) false = some nBits' ∧
      setCompact nBits ≤ setCompact nBits' := by
  have hrange : ∀ b ∈ spacedChain 100, b.InRange .main := by
    simp only [CBlockIndex.InRange]
    decide +kernel
  have hlaw := nextTarget_inRange_mono Consensus.Params.main_retargets false hrange
  refine ⟨hrange, hlaw.1 (.inr rfl),
    hlaw.2 (spacedChain 200) 100 200 ?_ rfl rfl (by decide) (by decide) ?_⟩
  · exact .cons ⟨rfl, rfl⟩ (.cons ⟨rfl, rfl⟩ (.cons ⟨rfl, rfl⟩ .nil))
  · decide +kernel

end Chratos
