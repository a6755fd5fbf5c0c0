import Chratos.Properties.Conservation

/-!
# Chratos — which blocks give the stake modifier its bits

`ComputeNextStakeModifier` sorts the blocks of the selection interval by time and hash and picks one of
them in each of up to 64 rounds. `SelectBlockFromCandidates` breaks off behind the stop time of the
round, but not before it has a block: the first one that is left is taken even if it lies behind.
-/

namespace Chratos

open Codec List

variable {x : CBlockIndex} {env : Env} {modifierPrev : UInt64} {candidates : List CBlockIndex}

/-! ## The first least element -/

/-- The first of the elements with the least key. -/
def FirstLeast {α : Type} (key : α → Nat) (xs : List α) (x : α) : Prop :=
  ∃ before after, xs = before ++ x :: after ∧ (∀ y ∈ before, key x < key y) ∧
    ∀ y ∈ after, key x ≤ key y

section

variable {α : Type} {key : α → Nat} {xs : List α} {x y : α}

theorem FirstLeast.singleton (key : α → Nat) (x : α) : FirstLeast key [x] x :=
  ⟨[], [], rfl, nofun, nofun⟩

/-- A running minimum that only a smaller key replaces. -/
theorem FirstLeast.concat (h : FirstLeast key xs x) (y : α) :
    FirstLeast key (xs ++ [y]) (if key y < key x then y else x) := by
  obtain ⟨before, after, rfl, hbefore, hafter⟩ := h
  by_cases hlt : key y < key x
  · rw [if_pos hlt]
    refine ⟨before ++ x :: after, [], rfl, ?_, nofun⟩
    exact forall_mem_append.mpr ⟨fun z hz => hlt.trans (hbefore z hz),
      forall_mem_cons.mpr ⟨hlt, fun z hz => hlt.trans_le (hafter z hz)⟩⟩
  · rw [if_neg hlt]
    refine ⟨before, after ++ [y], by simp, hbefore, ?_⟩
    exact forall_mem_append.mpr ⟨hafter, forall_mem_singleton.mpr (Nat.le_of_not_lt hlt)⟩

theorem FirstLeast.mem (h : FirstLeast key xs x) : x ∈ xs := by
  obtain ⟨before, after, rfl, -, -⟩ := h
  exact mem_append_right _ mem_cons_self

end

/-! ## Orders -/

theorem uint256Lt_iff {a b : Uint256} : uint256Lt a b = true ↔ a.toNat < b.toNat := by
  rw [uint256Lt, decide_eq_true_iff, serUint256, serUint256]
  exact reverse_leBytes_lt_iff a.isLt b.isLt

/-- Earlier in the order of time and hash. -/
def EarlierCandidate (a b : CBlockIndex) : Prop :=
  a.nTime.toNat < b.nTime.toNat ∨ a.nTime.toNat = b.nTime.toNat ∧ a.hash.toNat < b.hash.toNat

/-- What is sorted. -/
def candidateOf (pindex : CBlockIndex) : Nat × Uint256 := (pindex.nTime.toNat, pindex.hash)

theorem candidateLe_iff {a b : Nat × Uint256} :
    candidateLe a b = true ↔ a.1 < b.1 ∨ a.1 = b.1 ∧ a.2.toNat ≤ b.2.toNat := by
  have hlt : uint256Lt b.2 a.2 = false ↔ a.2.toNat ≤ b.2.toNat := by
    rw [← Bool.not_eq_true, uint256Lt_iff, not_lt]
  simp [candidateLe, hlt]

/-! ## One round -/

section

variable (env : Env) (modifierPrev : UInt64)

/-- The hash by which candidates are compared. -/
def selectionHash (pindex : CBlockIndex) : Uint256 :=
  let h := env.hash256 (serUint256 pindex.hashProof ++ leBytes 8 modifierPrev.toNat)
  if pindex.fProofOfStake then h >>> 32 else h

/-- The block that a round picks from those that remain, in the order of time and hash: the least
selection hash up to the stop time, or the first block if there is none. -/
def RoundChoice (remaining : List CBlockIndex) (stop : Int) (x : CBlockIndex) : Prop :=
  if remaining.filter (fun b => (b.nTime.toNat : Int) ≤ stop) = [] then remaining.head? = some x
  else FirstLeast (fun b => (selectionHash env modifierPrev b).toNat)
    (remaining.filter fun b => (b.nTime.toNat : Int) ≤ stop) x

variable {env modifierPrev} {selected : List Uint256} {stop : Int}

theorem RoundChoice.mem {remaining : List CBlockIndex}
    (h : RoundChoice env modifierPrev remaining stop x) : x ∈ remaining := by
  unfold RoundChoice at h
  split at h
  · exact mem_of_head? h
  · exact mem_of_mem_filter h.mem

/-- The blocks that are not picked yet. -/
def unselected (selected : List Uint256) (blocks : List CBlockIndex) : List CBlockIndex :=
  blocks.filter fun b => b.hash ∉ selected

section

variable {blocks : List CBlockIndex}

/-- Behind the stop time nothing changes the choice. -/
theorem selectBlockLoop_behind {best : Uint256 × CBlockIndex}
    (hindexed : ∀ b ∈ blocks, env.mapBlockIndex b.hash = some b)
    (hbehind : ∀ b ∈ blocks, stop < b.nTime.toNat) :
    selectBlockLoop env selected stop modifierPrev (blocks.map candidateOf) (some best) =
      some (some best.2) := by
  cases blocks with
  | nil => rfl
  | cons b blocks =>
    rw [map_cons, selectBlockLoop]
    simp only [candidateOf, hindexed b mem_cons_self]
    rw [if_pos ⟨rfl, hbehind b mem_cons_self⟩]
    rfl

theorem filter_of_behind (hbehind : ∀ b ∈ blocks, stop < b.nTime.toNat) :
    blocks.filter (fun b => (b.nTime.toNat : Int) ≤ stop) = [] := by
  rw [filter_eq_nil_iff]
  intro c hc
  have := hbehind c hc
  rw [decide_eq_true_iff]
  omega

variable (hindexed : ∀ b ∈ blocks, env.mapBlockIndex b.hash = some b)
  (hsorted : blocks.Pairwise fun a b => a.nTime.toNat ≤ b.nTime.toNat)

include hindexed hsorted

/-- The loop once it has a block, `seen` being the blocks compared so far. -/
theorem selectBlockLoop_some {seen : List CBlockIndex}
    (hx : FirstLeast (fun b => (selectionHash env modifierPrev b).toNat) seen x) :
    ∃ y, selectBlockLoop env selected stop modifierPrev (blocks.map candidateOf)
        (some (selectionHash env modifierPrev x, x)) = some (some y) ∧
      FirstLeast (fun b => (selectionHash env modifierPrev b).toNat)
        (seen ++ (unselected selected blocks).filter fun b => (b.nTime.toNat : Int) ≤ stop) y := by
  induction blocks generalizing seen x with
  | nil => exact ⟨x, rfl, by rwa [unselected, filter_nil, filter_nil, append_nil]⟩
  | cons b blocks ih =>
    obtain ⟨hlater, hrest⟩ := pairwise_cons.mp hsorted
    obtain ⟨hb, hindexed'⟩ := forall_mem_cons.mp hindexed
    by_cases hstop : stop < b.nTime.toNat
    · -- the loop breaks, and the times only grow
      have hbehind : ∀ c ∈ b :: blocks, stop < c.nTime.toNat := by
        refine forall_mem_cons.mpr ⟨hstop, fun c hc => ?_⟩
        have := hlater c hc
        omega
      refine ⟨x, selectBlockLoop_behind hindexed hbehind, ?_⟩
      rwa [unselected, filter_of_behind fun c hc => hbehind c (mem_of_mem_filter hc), append_nil]
    · have hin : (b.nTime.toNat : Int) ≤ stop := not_lt.mp hstop
      rw [map_cons, selectBlockLoop]
      simp only [candidateOf, hb]
      rw [if_neg (fun h => hstop h.2)]
      by_cases hpicked : b.hash ∈ selected
      · rw [if_pos hpicked, unselected, filter_cons_of_neg (by simpa using hpicked)]
        exact ih hindexed' hrest hx
      · rw [if_neg hpicked, unselected, filter_cons_of_pos (by simpa using hpicked),
          filter_cons_of_pos (by simpa using hin)]
        obtain ⟨y, hloop, hy⟩ := ih hindexed' hrest (hx.concat b)
        refine ⟨y, ?_, by rwa [append_assoc] at hy⟩
        rw [← hloop]
        congr 1
        show (if uint256Lt (selectionHash env modifierPrev b) (selectionHash env modifierPrev x) = true
          then some (selectionHash env modifierPrev b, b)
          else some (selectionHash env modifierPrev x, x)) = _
        by_cases hless :
          uint256Lt (selectionHash env modifierPrev b) (selectionHash env modifierPrev x) = true
        · rw [if_pos hless, if_pos (uint256Lt_iff.mp hless)]
        · rw [if_neg hless, if_neg (mt uint256Lt_iff.mpr hless)]

/-- **One round**: the loop returns the choice, if any block is left. -/
theorem selectBlockLoop_eq (hleft : unselected selected blocks ≠ []) :
    ∃ y, selectBlockLoop env selected stop modifierPrev (blocks.map candidateOf) none =
        some (some y) ∧ RoundChoice env modifierPrev (unselected selected blocks) stop y := by
  induction blocks with
  | nil => exact absurd rfl hleft
  | cons b blocks ih =>
    obtain ⟨hlater, hrest⟩ := pairwise_cons.mp hsorted
    obtain ⟨hb, hindexed'⟩ := forall_mem_cons.mp hindexed
    rw [map_cons, selectBlockLoop]
    simp only [candidateOf, hb]
    by_cases hpicked : b.hash ∈ selected
    · have hskip : unselected selected (b :: blocks) = unselected selected blocks :=
        filter_cons_of_neg (by simpa using hpicked)
      rw [hskip] at hleft ⊢
      rw [if_pos hpicked]
      exact ih hindexed' hrest hleft
    · have hkeep : unselected selected (b :: blocks) = b :: unselected selected blocks :=
        filter_cons_of_pos (by simpa using hpicked)
      rw [if_neg hpicked, hkeep]
      by_cases hstop : stop < b.nTime.toNat
      · -- the first block lies behind the stop time, and so does all the rest
        have hbehind : ∀ c ∈ blocks, stop < c.nTime.toNat := by
          intro c hc
          have := hlater c hc
          omega
        refine ⟨b, selectBlockLoop_behind hindexed' hbehind, ?_⟩
        have hall : ∀ c ∈ b :: unselected selected blocks, stop < c.nTime.toNat :=
          forall_mem_cons.mpr ⟨hstop, fun c hc => hbehind c (mem_of_mem_filter hc)⟩
        rw [RoundChoice, if_pos (filter_of_behind hall)]
        rfl
      · have hin : (b.nTime.toNat : Int) ≤ stop := not_lt.mp hstop
        obtain ⟨y, hloop, hy⟩ : ∃ y, selectBlockLoop env selected stop modifierPrev
            (blocks.map candidateOf) _ = some (some y) ∧ _ :=
          selectBlockLoop_some hindexed' hrest (.singleton _ b)
        refine ⟨y, hloop, ?_⟩
        have hcons : (b :: unselected selected blocks).filter (fun b => (b.nTime.toNat : Int) ≤ stop) =
            b :: (unselected selected blocks).filter fun b => (b.nTime.toNat : Int) ≤ stop :=
          filter_cons_of_pos (by simpa using hin)
        rw [RoundChoice, hcons, if_neg (cons_ne_nil _ _)]
        exact hy

end

end

/-! ## The rounds -/

/-- The stop time after so many rounds. -/
def intervalStop (params : Consensus.Params) (start : Int) (rounds : Nat) : Int :=
  start + ((List.range rounds).map (selectionIntervalSection params)).sum

theorem intervalStop_succ (params : Consensus.Params) (start : Int) (n : Nat) :
    intervalStop params start n + selectionIntervalSection params n =
      intervalStop params start (n + 1) := by
  rw [intervalStop, intervalStop, range_succ, map_append, sum_append, map_singleton, sum_singleton]
  omega

/-- What the rounds have picked, each time from the rest, and the bits they have written. -/
structure Selection (env : Env) (modifierPrev : UInt64) (candidates : List CBlockIndex) (start : Int)
    (picked : List CBlockIndex) (bits : UInt64) : Prop where
  nodup : picked.Nodup
  subset : picked ⊆ candidates
  choice : ∀ r x, picked[r]? = some x → RoundChoice env modifierPrev
    (candidates.filter (· ∉ picked.take r)) (intervalStop env.consensus start (r + 1)) x
  bits : ∀ r, bits.toNat.testBit r = picked[r]?.any (·.stakeEntropyBit)

theorem testBit_entropy {n : Nat} (hn : n < 64) (entropy : Bool) (i : Nat) :
    ((if entropy then 1 else 0 : UInt64) <<< UInt64.ofNat n).toNat.testBit i =
      (decide (i = n) && entropy) := by
  have hshift : (UInt64.ofNat n).toNat % 64 = n := by
    rw [UInt64.toNat_ofNat', Nat.mod_mod_of_dvd n (by decide), Nat.mod_eq_of_lt hn]
  have hpow : 2 ^ n < 2 ^ 64 := Nat.pow_lt_pow_right (by decide) hn
  rw [UInt64.toNat_shiftLeft, hshift]
  cases entropy with
  | false => simp
  | true =>
    rw [if_pos rfl, UInt64.toNat_one, Nat.one_shiftLeft, Nat.mod_eq_of_lt hpow, Nat.testBit_two_pow,
      Bool.and_true, decide_eq_decide]
    exact eq_comm

section

variable {picked : List CBlockIndex} {start : Int} {bits : UInt64}

theorem Selection.nil : Selection env modifierPrev candidates start [] 0 where
  nodup := nodup_nil
  subset := nil_subset _
  choice := nofun
  bits r := Nat.zero_testBit r

/-- A round adds its choice to the blocks picked, and its entropy bit. -/
theorem Selection.concat (h : Selection env modifierPrev candidates start picked bits)
    (hround : picked.length < 64)
    (hx : RoundChoice env modifierPrev (candidates.filter (· ∉ picked))
      (intervalStop env.consensus start (picked.length + 1)) x) :
    Selection env modifierPrev candidates start (picked ++ [x])
      (bits ||| ((if x.stakeEntropyBit then 1 else 0) <<< UInt64.ofNat picked.length)) where
  nodup := by
    have hnew : x ∉ picked := by simpa using (mem_filter.mp hx.mem).2
    exact nodup_append_comm.mp (nodup_cons.mpr ⟨hnew, h.nodup⟩)
  subset := append_subset.mpr
    ⟨h.subset, cons_subset.mpr ⟨mem_of_mem_filter hx.mem, nil_subset _⟩⟩
  choice := by
    intro r y hy
    rcases lt_trichotomy r picked.length with hr | rfl | hr
    · rw [getElem?_append_left hr] at hy
      rw [take_append_of_le_length hr.le]
      exact h.choice r y hy
    · rw [getElem?_concat_length] at hy
      rw [take_left, ← Option.some.inj hy]
      exact hx
    · rw [getElem?_eq_none (by rw [length_append]; exact hr)] at hy
      cases hy
  bits := by
    intro r
    rw [UInt64.toNat_or, Nat.testBit_or, h.bits, testBit_entropy hround]
    rcases lt_trichotomy r picked.length with hr | rfl | hr
    · rw [getElem?_append_left hr, decide_eq_false hr.ne, Bool.false_and, Bool.or_false]
    · rw [getElem?_concat_length, getElem?_eq_none le_rfl, decide_eq_true rfl]
      rfl
    · rw [getElem?_eq_none hr.le, getElem?_eq_none (by rw [length_append]; exact hr),
        decide_eq_false hr.ne']
      rfl

/-- Blocks are told apart by their hashes. -/
theorem unselected_eq (hdistinct : (candidates.map (·.hash)).Nodup) (hsubset : picked ⊆ candidates) :
    unselected (picked.map (·.hash)).reverse candidates = candidates.filter (· ∉ picked) := by
  apply filter_congr
  intro b hb
  rw [decide_eq_decide, not_iff_not, mem_reverse, mem_map]
  constructor
  · rintro ⟨c, hc, heq⟩
    exact inj_on_of_nodup_map hdistinct (hsubset hc) hb heq ▸ hc
  · intro hb'
    exact ⟨b, hb', rfl⟩

/-- **The rounds**: as many as there are candidates never fail. -/
theorem Selection.exists_modifierRounds
    (hindexed : ∀ b ∈ candidates, env.mapBlockIndex b.hash = some b)
    (hsorted : candidates.Pairwise fun a b => a.nTime.toNat ≤ b.nTime.toNat)
    (hdistinct : (candidates.map (·.hash)).Nodup) {rounds : Nat}
    (h : Selection env modifierPrev candidates start picked bits)
    (henough : picked.length + rounds ≤ candidates.length) (hrounds : picked.length + rounds ≤ 64) :
    ∃ picked' bits', modifierRounds env (candidates.map candidateOf) modifierPrev rounds picked.length
        (intervalStop env.consensus start picked.length) (picked.map (·.hash)).reverse bits =
        some bits' ∧ Selection env modifierPrev candidates start picked' bits' ∧
      picked'.length = picked.length + rounds := by
  induction rounds generalizing picked bits with
  | zero => exact ⟨picked, bits, rfl, h, rfl⟩
  | succ rounds ih =>
    have hleft : unselected (picked.map (·.hash)).reverse candidates ≠ [] := by
      rw [unselected_eq hdistinct h.subset]
      intro hnil
      have hall : candidates ⊆ picked := by
        intro b hb
        by_contra hnot
        exact filter_eq_nil_iff.mp hnil b hb (by simpa using hnot)
      have := (subperm_of_subset (List.Nodup.of_map _ hdistinct) hall).length_le
      omega
    obtain ⟨x, hloop, hx⟩ : ∃ x, selectBlockLoop env _ (intervalStop env.consensus start
        (picked.length + 1)) modifierPrev _ _ = _ ∧ _ := selectBlockLoop_eq hindexed hsorted hleft
    rw [unselected_eq hdistinct h.subset] at hx
    have hmore : (picked ++ [x]).length = picked.length + 1 := by
      rw [length_append, length_singleton]
    obtain ⟨picked', bits', hrun, hselection, hlength⟩ :=
      ih (h.concat (by omega) hx) (by omega) (by omega)
    refine ⟨picked', bits', ?_, hselection, by omega⟩
    rw [map_append, reverse_append, hmore] at hrun
    rw [modifierRounds, intervalStop_succ, hloop]
    exact hrun

end

/-! ## The whole computation -/

/-- Where the candidates begin. -/
def selectionStart (params : Consensus.Params) (pindexPrev : CBlockIndex) : Int :=
  (pindexPrev.nTime.toNat / params.nModifierInterval * params.nModifierInterval : Nat) -
    (((List.range 64).map (selectionIntervalSection params)).sum : Int)

theorem getLastStakeModifier_cons (pindex : CBlockIndex) (below : PrevChain) :
    ∃ r, getLastStakeModifier (pindex :: below) = some r := by
  induction below generalizing pindex with
  | nil =>
    rw [getLastStakeModifier]
    split
    · exact ⟨_, rfl⟩
    · exact ⟨_, rfl⟩
  | cons pprev below ih =>
    rw [getLastStakeModifier]
    split
    · exact ⟨_, rfl⟩
    · exact ih pprev

/-- Not later in the order of time and hash. -/
def NotLater (a b : CBlockIndex) : Prop := candidateLe (candidateOf a) (candidateOf b) = true

instance (a b : CBlockIndex) : Decidable (NotLater a b) :=
  inferInstanceAs (Decidable (candidateLe (candidateOf a) (candidateOf b) = true))

theorem notLater_iff {a b : CBlockIndex} : NotLater a b ↔
    a.nTime.toNat < b.nTime.toNat ∨ a.nTime.toNat = b.nTime.toNat ∧ a.hash.toNat ≤ b.hash.toNat :=
  candidateLe_iff

instance : Std.Total NotLater where
  total a b := by
    rw [notLater_iff, notLater_iff]
    omega

instance : IsTrans CBlockIndex NotLater where
  trans a b c := by
    rw [notLater_iff, notLater_iff, notLater_iff]
    omega

/-- Sorting the pairs of times and hashes sorts the blocks. -/
theorem exists_sorted (blocks : List CBlockIndex) (hdistinct : (blocks.map (·.hash)).Nodup) :
    ∃ candidates : List CBlockIndex, candidates.Perm blocks ∧ candidates.Pairwise EarlierCandidate ∧
      ((blocks.map candidateOf).reverse).insertionSort (fun a b => candidateLe a b) =
        candidates.map candidateOf := by
  have hperm : (blocks.reverse.insertionSort NotLater).Perm blocks :=
    (perm_insertionSort _ _).trans (reverse_perm _)
  refine ⟨blocks.reverse.insertionSort NotLater, hperm, ?_, ?_⟩
  · -- sorted, and no two hashes are equal
    have hne : (blocks.reverse.insertionSort NotLater).Pairwise fun a b => a.hash ≠ b.hash :=
      pairwise_map.mp ((hperm.map _).nodup_iff.mpr hdistinct)
    refine ((pairwise_insertionSort NotLater _).and hne).imp ?_
    rintro a b ⟨hle, hhash⟩
    have hnat : a.hash.toNat ≠ b.hash.toNat := fun h => hhash (BitVec.eq_of_toNat_eq h)
    rw [notLater_iff] at hle
    rw [EarlierCandidate]
    omega
  · rw [← map_reverse]
    exact (map_insertionSort _ _ candidateOf _ fun _ _ _ _ => Iff.rfl).symm

/-- The two ways in which the computation ends. -/
theorem computeNextStakeModifier_cons {pindexPrev : CBlockIndex} {below : PrevChain} {time : Nat}
    (hlast : getLastStakeModifier (pindexPrev :: below) = some (modifierPrev, time))
      (hsort : ((((pindexPrev :: below).takeWhile fun b =>
        selectionStart env.consensus pindexPrev ≤ b.nTime.toNat).map candidateOf).reverse).insertionSort
      (fun a b => candidateLe a b) = candidates.map candidateOf) :
    computeNextStakeModifier env (pindexPrev :: below) =
      if pindexPrev.nTime.toNat / env.consensus.nModifierInterval ≤
          time / env.consensus.nModifierInterval then some (modifierPrev, false)
      else (modifierRounds env (candidates.map candidateOf) modifierPrev (min 64 candidates.length) 0
        (selectionStart env.consensus pindexPrev) [] 0).map (·, true) := by
  have hcount : candidates.length = (candidates.map candidateOf).length := by rw [length_map]
  unfold computeNextStakeModifier
  rw [hcount, ← hsort]
  simp only [hlast]
  rfl

/-- **The stake modifier**: the computation succeeds, and a new modifier has the entropy bits of blocks
picked round after round. -/
theorem stakeModifier_selection (env : Env) (pindexPrev : CBlockIndex) (below : PrevChain)
    (hindexed : ∀ b ∈ pindexPrev :: below, env.mapBlockIndex b.hash = some b)
    (hdistinct : ((pindexPrev :: below).map (·.hash)).Nodup) : ∃ modifier fGenerated,
      computeNextStakeModifier env (pindexPrev :: below) = some (modifier, fGenerated) ∧
      (fGenerated = true → ∃ modifierPrev time,
        getLastStakeModifier (pindexPrev :: below) = some (modifierPrev, time) ∧
        ∃ candidates picked : List CBlockIndex,
          candidates.Perm ((pindexPrev :: below).takeWhile fun b =>
            selectionStart env.consensus pindexPrev ≤ b.nTime.toNat) ∧
          candidates.Pairwise EarlierCandidate ∧
          picked.length = min 64 candidates.length ∧ picked.Nodup ∧ (∀ r x, picked[r]? = some x →
            RoundChoice env modifierPrev (candidates.filter (· ∉ picked.take r))
              (intervalStop env.consensus (selectionStart env.consensus pindexPrev) (r + 1)) x ∧
            modifier.toNat.testBit r = x.stakeEntropyBit) ∧
          ∀ r, picked.length ≤ r → modifier.toNat.testBit r = false) := by
  obtain ⟨⟨modifierPrev, time⟩, hlast⟩ := getLastStakeModifier_cons pindexPrev below
  have htake : (pindexPrev :: below).takeWhile (fun b =>
      selectionStart env.consensus pindexPrev ≤ b.nTime.toNat) <+: pindexPrev :: below :=
    List.takeWhile_prefix _
  have hnodup := (htake.sublist.map (·.hash)).nodup hdistinct
  obtain ⟨candidates, hperm, hsorted, hsort⟩ := exists_sorted _ hnodup
  rw [computeNextStakeModifier_cons hlast hsort]
  by_cases hyoung : pindexPrev.nTime.toNat / env.consensus.nModifierInterval ≤
      time / env.consensus.nModifierInterval
  · rw [if_pos hyoung]
    exact ⟨_, _, rfl, nofun⟩
  · rw [if_neg hyoung]
    have hmem : ∀ b ∈ candidates, env.mapBlockIndex b.hash = some b := fun b hb =>
      hindexed b (htake.subset (hperm.mem_iff.mp hb))
    have htimes : candidates.Pairwise fun a b => a.nTime.toNat ≤ b.nTime.toNat := by
      refine hsorted.imp ?_
      intro a b h
      rw [EarlierCandidate] at h
      omega
    have hrounds : 0 + min 64 candidates.length ≤ candidates.length ∧
        0 + min 64 candidates.length ≤ 64 := by omega
    have hnil : Selection env modifierPrev candidates (selectionStart env.consensus pindexPrev) [] 0 :=
      .nil
    obtain ⟨picked, bits, hrun, hselection, hlength⟩ :=
      hnil.exists_modifierRounds hmem htimes ((hperm.map _).nodup_iff.mpr hnodup)
        hrounds.1 hrounds.2
    have hstart : intervalStop env.consensus (selectionStart env.consensus pindexPrev) 0 =
        selectionStart env.consensus pindexPrev := add_zero _
    rw [length_nil, hstart] at hrun
    refine ⟨bits, true, congrArg (Option.map (·, true)) hrun, ?_⟩
    intro _
    refine ⟨modifierPrev, time, hlast, candidates, picked, hperm, hsorted, ?_, hselection.nodup, ?_, ?_⟩
    · rw [hlength, length_nil, zero_add]
    · intro r x hx
      refine ⟨hselection.choice r x hx, ?_⟩
      rw [hselection.bits, hx]
      rfl
    · intro r hr
      rw [hselection.bits, getElem?_eq_none hr]
      rfl

/-- Six blocks, of which the last one belongs to a new interval. -/
theorem stakeModifier_selection_six :
    (computeNextStakeModifier (sampleEnv 6) (sampleIndex 5 :: sampleChain 5)).map Prod.snd = some true ∧
      ∃ modifier, computeNextStakeModifier (sampleEnv 6) (sampleIndex 5 :: sampleChain 5) =
          some (modifier, true) ∧
        ∃ candidates picked : List CBlockIndex, candidates.Pairwise EarlierCandidate ∧
          picked.length = min 64 candidates.length ∧ picked.Nodup := by
  have hnew : (computeNextStakeModifier (sampleEnv 6) (sampleIndex 5 :: sampleChain 5)).map Prod.snd =
      some true := by decide +kernel
  obtain ⟨modifier, fGenerated, hrun, hbits⟩ := stakeModifier_selection (sampleEnv 6) (sampleIndex 5)
    (sampleChain 5) (by decide +kernel) (by decide +kernel)
  have hgenerated : fGenerated = true := by
    rw [hrun] at hnew
    exact Option.some.inj hnew
  obtain ⟨-, -, -, candidates, picked, -, hsorted, hlength, hnodup, -⟩ := hbits hgenerated
  exact ⟨hnew, modifier, hgenerated ▸ hrun, candidates, picked, hsorted, hlength, hnodup⟩

end Chratos
