import Chratos.Chain.Context
import Mathlib.Data.List.MinMax

/-!
# Chratos — cached lock points (`main.cpp`)

`CheckSequenceLocks` stores the lock it has computed, with the highest block that it depends on.
While that block is in the chain the lock may be used again. Inputs that are not confirmed were
taken to be confirmed in the next block, and do not count for the stored block.
-/

namespace Chratos

open List Option

variable {below above : PrevChain} {tip : CBlockIndex} {i : CTxIn}

structure LockPoints where
  height : Int
  time : Int
  maxInputBlock : Option CBlockIndex
  deriving DecidableEq

def MEMPOOL_HEIGHT : Nat := 0x7fffffff

/-- `SEQUENCE_LOCKTIME_DISABLE_FLAG` is not set. -/
def CTxIn.locks (i : CTxIn) : Bool := i.nSequence &&& 0x80000000 = 0

def fEnforceBIP68 (tx : CTransaction) (fVerify : Bool) : Bool := fVerify && 2 ≤ tx.nVersion % 2 ^ 32

/-- The height of an input. One that is not confirmed is to be in the next block. -/
def coinHeight (getCoins : Uint256 → Option Nat) (tip : CBlockIndex) (i : CTxIn) : Nat :=
  (getCoins i.prevout.hash).elim 0 fun n => if n = MEMPOOL_HEIGHT then tip.nHeight + 1 else n

def calculateSequenceLocks (fEnforce : Bool) (inputs : List (CTxIn × Nat)) (chain : PrevChain) :
    Option (Int × Int) :=
  if fEnforce then inputs.foldlM (sequenceLock chain) (-1, -1) else some (-1, -1)

def evaluateSequenceLocks (tip : CBlockIndex) (below : PrevChain) (lock : Int × Int) : Bool :=
  !(tip.nHeight + 1 ≤ lock.1 || getMedianTimePast (tip :: below) ≤ lock.2)

def testLockPointValidity (chain : PrevChain) (lp : LockPoints) : Prop :=
    ∀ b ∈ lp.maxInputBlock, b ∈ chain

/-- The height of the highest input, with those left out that are not confirmed. An input without a lock
counts as height 0 where locks are enforced. -/
def maxInputHeight (fEnforce : Bool) (tip : CBlockIndex) (inputs : List (CTxIn × Nat)) : Nat :=
  (inputs.map fun i =>
    if fEnforce && !i.1.locks then 0 else i.2).filter (· ≠ tip.nHeight + 1) |>.foldr max 0

/-- `CheckSequenceLocks`. `none` is an ancestor that is not there. -/
def checkSequenceLocks (getCoins : Uint256 → Option Nat) (tip : CBlockIndex) (below : PrevChain)
    (tx : CTransaction) (fVerify : Bool) (lp : LockPoints) (useExistingLockPoints : Bool) :
    Option (Bool × LockPoints) :=
  if useExistingLockPoints then some (evaluateSequenceLocks tip below (lp.height, lp.time), lp)
  else
    -- Missing input
    if tx.vin.any fun i => (getCoins i.prevout.hash).isNone then some (false, lp)
    else
      let inputs := tx.vin.map fun i => (i, coinHeight getCoins tip i)
      (calculateSequenceLocks (fEnforceBIP68 tx fVerify) inputs (tip :: below)).map fun lock =>
        (evaluateSequenceLocks tip below lock, ⟨lock.1, lock.2,
          getAncestor (tip :: below) (maxInputHeight (fEnforceBIP68 tx fVerify) tip inputs)⟩)

/-! ## The lock of an input depends on the chain up to its block -/

/-- Blocks above the coin's do not matter. -/
theorem sequenceLock_append {nHeight : Nat} (h : ∀ p ∈ above, nHeight - 1 ≠ p.nHeight)
    (chain : PrevChain) (nMin : Int × Int) (i : CTxIn) :
    sequenceLock (above ++ chain) nMin (i, nHeight) = sequenceLock chain nMin (i, nHeight) := by
  have hfind : getAncestor (above ++ chain) (nHeight - 1) = getAncestor chain (nHeight - 1) := by
    unfold getAncestor
    rw [find?_append, find?_eq_none.mpr fun p hp => by simpa using (h p hp).symm]
    rfl
  have hdrop : (above ++ chain).dropWhile (·.nHeight ≠ nHeight - 1) =
      chain.dropWhile (·.nHeight ≠ nHeight - 1) :=
    dropWhile_append_of_pos fun p hp => by simpa using (h p hp).symm
  unfold sequenceLock
  simp only [hfind, hdrop]

/-- An input without a lock. -/
theorem sequenceLock_of_not_locks (h : i.locks = false) (chain : PrevChain) (nMin : Int × Int)
    (nHeight : Nat) : sequenceLock chain nMin (i, nHeight) = some nMin := by
  exact if_pos (by simpa [CTxIn.locks] using h)

/-! ## Input by input

The locks of all inputs are passed together where each is passed. -/

/-- Whether the lock of one input is passed at a tip. -/
def lockPasses (chain : PrevChain) (tip : CBlockIndex) (below : PrevChain) (x : CTxIn × Nat) :
    Option Bool :=
  (sequenceLock chain (-1, -1) x).map (evaluateSequenceLocks tip below)

section

variable {chain chain' : PrevChain} {height height' : CTxIn → Nat}
  {vin : List CTxIn} {nMin nMin' lock : Int × Int}

theorem map_sequenceLock (x : CTxIn × Nat) :
    (sequenceLock chain nMin x).map (evaluateSequenceLocks tip below) =
      (lockPasses chain tip below x).map (evaluateSequenceLocks tip below nMin && ·) := by
  unfold lockPasses sequenceLock
  dsimp only
  split
  · refine congrArg some (Bool.eq_iff_iff.mpr ?_)
    simp [evaluateSequenceLocks]
    omega
  · split
    · cases getAncestor chain (x.2 - 1) with
      | none => rfl
      | some p =>
        refine congrArg some (Bool.eq_iff_iff.mpr ?_)
        simp [evaluateSequenceLocks]
        omega
    · refine congrArg some (Bool.eq_iff_iff.mpr ?_)
      simp [evaluateSequenceLocks]
      omega

/-- Two computations agree where they agree on each input. -/
theorem foldlM_sequenceLock_congr (h : ∀ i ∈ vin, lockPasses chain tip below (i, height i) =
      lockPasses chain' tip below (i, height' i))
    (hstart : evaluateSequenceLocks tip below nMin = evaluateSequenceLocks tip below nMin') :
    ((vin.map fun i => (i, height i)).foldlM (sequenceLock chain) nMin).map
        (evaluateSequenceLocks tip below) =
      ((vin.map fun i => (i, height' i)).foldlM (sequenceLock chain') nMin').map
        (evaluateSequenceLocks tip below) := by
  induction vin generalizing nMin nMin' with
  | nil => exact congrArg some hstart
  | cons i vin ih =>
    have hfirst : (sequenceLock chain nMin (i, height i)).map (evaluateSequenceLocks tip below) =
        (sequenceLock chain' nMin' (i, height' i)).map (evaluateSequenceLocks tip below) := by
      rw [map_sequenceLock, map_sequenceLock, h i mem_cons_self, hstart]
    rw [map_cons, map_cons, foldlM_cons, foldlM_cons]
    cases hnext : sequenceLock chain nMin (i, height i) with
    | none =>
      rw [hnext, map_none, eq_comm, map_eq_none_iff] at hfirst
      rw [hfirst]
      rfl
    | some next =>
      rw [hnext, map_some, eq_comm, map_eq_some_iff] at hfirst
      obtain ⟨next', hnext', heq⟩ := hfirst
      rw [hnext']
      exact ih (fun j hj => h j (mem_cons_of_mem _ hj)) heq.symm

/-- What is passed in the end has been passed by every input. -/
theorem lockPasses_of_foldlM {inputs : List (CTxIn × Nat)}
    (h : inputs.foldlM (sequenceLock chain) nMin = some lock)
    (hpass : evaluateSequenceLocks tip below lock = true) :
    evaluateSequenceLocks tip below nMin = true ∧
      ∀ x ∈ inputs, lockPasses chain tip below x = some true := by
  induction inputs generalizing nMin with
  | nil =>
    cases h
    exact ⟨hpass, nofun⟩
  | cons x inputs ih =>
    rw [foldlM_cons] at h
    obtain ⟨next, hnext, hrest⟩ := bind_eq_some_iff.mp h
    obtain ⟨hpassed, hall⟩ := ih hrest
    have hfirst : (lockPasses chain tip below x).map (evaluateSequenceLocks tip below nMin && ·) =
        some true := by
      rw [← map_sequenceLock, hnext, map_some, hpassed]
    obtain ⟨ok, hok, hand⟩ := map_eq_some_iff.mp hfirst
    obtain ⟨hstart, rfl⟩ := Bool.and_eq_true_iff.mp hand
    exact ⟨hstart, forall_mem_cons.mpr ⟨hok, hall⟩⟩

end

/-! ## Coins of a chain -/

/-- What a node sees of a chain. `included` says which transactions a block has; coins are found at the
height of their block, and the transactions of the mempool in no block. -/
structure SeesChain (included : CBlockIndex → Uint256 → Prop) (getCoins : Uint256 → Option Nat)
    (tip : CBlockIndex) (below : PrevChain) : Prop where
  down : (tip :: below).Pairwise fun p q => q.nHeight < p.nHeight
  full : ∀ n ≤ tip.nHeight, ∃ p ∈ tip :: below, p.nHeight = n
  median : ∀ rest, rest <:+ tip :: below → getMedianTimePast rest ≤ getMedianTimePast (tip :: below)
  confirmed : ∀ txid n, getCoins txid = some n → n ≠ MEMPOOL_HEIGHT →
    ∃ p ∈ tip :: below, included p txid ∧ p.nHeight = n
  placed : ∀ txid n, getCoins txid = some n → ∀ p ∈ tip :: below, included p txid → n = p.nHeight

section Agreement

variable {included : CBlockIndex → Uint256 → Prop} {getCoins getCoins' : Uint256 → Option Nat}
  {tip' b : CBlockIndex} {below' above' rest : PrevChain} {tx : CTransaction}
  {fVerify : Bool} {lp₀ lp : LockPoints} {n : Nat}

/-- The height of a coin is one of the chain, or that of the next block. -/
theorem SeesChain.coinHeight_le (h : SeesChain included getCoins tip below)
    (hn : getCoins i.prevout.hash = some n) : coinHeight getCoins tip i ≤ tip.nHeight + 1 ∧
      (n ≠ MEMPOOL_HEIGHT → coinHeight getCoins tip i = n ∧ n ≤ tip.nHeight) := by
  rw [coinHeight, hn, elim_some]
  split
  · exact ⟨le_rfl, fun hne => absurd ‹_› hne⟩
  · obtain ⟨p, hp, -, rfl⟩ := h.confirmed _ n hn ‹_›
    have hle : p.nHeight ≤ tip.nHeight := by
      rcases mem_cons.mp hp with rfl | hp
      · exact le_rfl
      · exact ((pairwise_cons.mp h.down).1 p hp).le
    exact ⟨hle.trans (Nat.le_succ _), fun _ => ⟨rfl, hle⟩⟩

/-- A coin that was confirmed in a block both chains have is there still, with the same lock. -/
theorem SeesChain.same_lock (h : SeesChain included getCoins tip below)
    (h' : SeesChain included getCoins' tip' below') (hsplit : tip :: below = above ++ b :: rest)
    (hsplit' : tip' :: below' = above' ++ b :: rest) (hn : getCoins i.prevout.hash = some n)
    (hne : n ≠ MEMPOOL_HEIGHT) (hle : n ≤ b.nHeight) (havailable : getCoins' i.prevout.hash ≠ none) :
    getCoins' i.prevout.hash = some n ∧ ∀ nMin,
      sequenceLock (tip' :: below') nMin (i, n) = sequenceLock (tip :: below) nMin (i, n) := by
  obtain ⟨p, hp, hincluded, rfl⟩ := h.confirmed _ n hn hne
  have hdown := h.down
  have hdown' := h'.down
  rw [hsplit] at hdown hp ⊢
  rw [hsplit'] at hdown' ⊢
  have hlower : ∀ q ∈ above, b.nHeight < q.nHeight := fun q hq =>
    (pairwise_append.mp hdown).2.2 q hq b mem_cons_self
  have hlower' : ∀ q ∈ above', b.nHeight < q.nHeight := fun q hq =>
    (pairwise_append.mp hdown').2.2 q hq b mem_cons_self
  constructor
  · obtain ⟨n', hn'⟩ := ne_none_iff_exists'.mp havailable
    have hp' : p ∈ tip' :: below' := by
      rw [hsplit']
      exact mem_append_right _ ((mem_append.mp hp).resolve_left fun habove =>
        (hlower p habove).not_ge hle)
    rw [hn', h'.placed _ n' hn' p hp' hincluded]
  · intro nMin
    rw [sequenceLock_append, sequenceLock_append]
    · intro q hq
      have := hlower q hq
      omega
    · intro q hq
      have := hlower' q hq
      omega

/-- A lock on a coin of the next block is passed only if it is one of nothing. A later tip then
passes it, and a tip that passes it with the coin anywhere in its chain. -/
theorem SeesChain.lockPasses_next (h' : SeesChain included getCoins' tip' below')
    (hlocks : i.locks = true)
    (hpass : lockPasses (tip :: below) tip below (i, tip.nHeight + 1) = some true)
    (htip : tip.nHeight ≤ tip'.nHeight)
    (hmedian : getMedianTimePast (tip :: below) ≤ getMedianTimePast (tip' :: below'))
    (hn : n ≤ tip'.nHeight + 1) : lockPasses (tip' :: below') tip' below' (i, n) =
      lockPasses (tip :: below) tip' below' (i, tip.nHeight + 1) := by
  have hlocks : ¬ i.nSequence &&& 0x80000000 ≠ 0 := by simpa [CTxIn.locks] using hlocks
  have hdrop : (tip :: below).dropWhile (·.nHeight ≠ tip.nHeight + 1 - 1) = tip :: below :=
    dropWhile_cons_of_neg (by simp)
  have hown : getAncestor (tip :: below) (tip.nHeight + 1 - 1) = some tip := find?_cons_of_pos (by simp)
  obtain ⟨p, hp, hheight⟩ := h'.full (n - 1) (by omega)
  obtain ⟨q, hq⟩ := isSome_iff_exists.mp (show (getAncestor (tip' :: below') (n - 1)).isSome = true from
    find?_isSome.mpr ⟨p, hp, by simpa using hheight⟩)
  have hsuffix := h'.median _ (dropWhile_suffix fun q => q.nHeight ≠ n - 1)
  unfold lockPasses sequenceLock at hpass ⊢
  simp only [if_neg hlocks, hdrop, hown, hq] at hpass ⊢
  split at hpass
  · rw [if_pos ‹_›, if_pos ‹_›]
    refine congrArg some (Bool.eq_iff_iff.mpr ?_)
    simp [evaluateSequenceLocks] at hpass hsuffix ⊢
    omega
  · rw [if_neg ‹_›, if_neg ‹_›]
    refine congrArg some (Bool.eq_iff_iff.mpr ?_)
    simp [evaluateSequenceLocks] at hpass ⊢
    omega

end Agreement

def plainBlock (n : Nat) : CBlockIndex where
  hash := n
  nHeight := n
  nVersion := 2
  nTime := 0
  nBits := 0

/-- One input, with a lock of no blocks. -/
def zeroLockTx : CTransaction where
  nVersion := 2
  nTime := 0
  vin := [⟨⟨1, 0⟩, [], 0⟩]
  vout := []
  nLockTime := 0

/-- Its check at a tip, with its coin at some height. -/
def zeroLock (nCoinHeight nTip : Nat) : LockPoints → Bool → Option (Bool × LockPoints) :=
  checkSequenceLocks (fun _ =>
    some nCoinHeight) (plainBlock nTip) ((List.range nTip).reverse.map plainBlock)
    zeroLockTx true

/-- A chain whose block 1 has all coins. -/
theorem seesChain_of_first (hdown : (tip :: below).Pairwise fun p q => q.nHeight < p.nHeight)
    (hfull : ∀ n ≤ tip.nHeight, ∃ p ∈ tip :: below, p.nHeight = n) (hpos : 1 ≤ tip.nHeight)
    (hmedian : ∀ k ≤ below.length + 1,
      getMedianTimePast ((tip :: below).drop k) ≤ getMedianTimePast (tip :: below)) :
    SeesChain (fun p _ => p.nHeight = 1) (fun _ => some 1) tip below where
  down := hdown
  full := hfull
  median rest hrest := by
    rw [suffix_iff_eq_drop.mp hrest]
    exact hmedian _ (Nat.sub_le _ _)
  confirmed := by
    rintro txid n ⟨⟩ -
    obtain ⟨p, hp, hheight⟩ := hfull 1 hpos
    exact ⟨p, hp, hheight, hheight⟩
  placed := by
    rintro txid n ⟨⟩ p - hp
    exact hp.symm

end Chratos
