import Chratos.Consensus.Stake

/-!
# Chratos — dividends (`dividend/dividend.cpp`, `dividend/dividendtx.cpp`)

A contribution burns coins. Once it is `DIVIDEND_MIN_AGE` deep it is *mature*, and if it is large
against the money supply it is *paid*: every coin that was there when it matured grows in
proportion. Smaller contributions wait in a fund that the next paid one is to take along.

The functions ask a contribution for its id, its height and its credit, so this is what a
`CDividendTx` is here. They read the ledger and the height of the tip from global variables, which
are collected in a `DividendView`.
-/

namespace Chratos

open List

/-- A contribution: its id, the height of its block (-1 if the block is not known) and the value of
its outputs to the fund. -/
structure CDividendTx where
  hash : Uint256
  height : Int
  credit : Int
  deriving DecidableEq, Repr

def DIVIDEND_MIN_AGE : Int := 10

/-- `GetModifier(amount, supply)` against `DIVIDEND_THRESHOLD`, which is 0.0001. The code compares
doubles; nothing is assumed about their rounding. -/
structure Threshold where
  ge : Int → Int → Bool
  gt : Int → Int → Bool

/-- The comparisons as they are meant, between exact fractions. With nothing to divide by, the
quotient is infinite or not a number. -/
def Threshold.exact : Threshold where
  ge := fun amount supply =>
    let rest := supply - amount
    if 0 < rest then rest ≤ amount * 10000
    else if rest = 0 then 0 < amount else amount * 10000 ≤ rest
  gt := fun amount supply =>
    let rest := supply - amount
    if 0 < rest then rest < amount * 10000
    else if rest = 0 then 0 < amount else amount * 10000 < rest

/-- `std::sort` by height. Contributions of equal height come in an order that is not specified. -/
structure HeightSort where
  sort : List CDividendTx → List CDividendTx
  perm : ∀ l, (sort l).Perm l
  sorted : ∀ l, (sort l).Pairwise fun a b => a.height ≤ b.height

/-- A sort that keeps contributions of equal height in their order. -/
def HeightSort.stable : HeightSort where
  sort := List.insertionSort fun a b => a.height ≤ b.height
  perm := perm_insertionSort _
  sorted := by
    have : Std.Total fun a b : CDividendTx => a.height ≤ b.height := ⟨fun _ _ => le_total _ _⟩
    have : IsTrans CDividendTx fun a b => a.height ≤ b.height := ⟨fun _ _ _ => le_trans⟩
    exact pairwise_insertionSort _

/-- What the functions of `CDividend` read. The two containers are given in the order the code
walks through them. -/
structure DividendView where
  std : HeightSort
  threshold : Threshold
  nLastPOWBlock : Nat
  tipHeight : Int
  mapLedger : List CDividendTx
  dtxOrdered : List CDividendTx

/-! ## Contributions -/

def CDividendTx.getMatureHeight (dtx : CDividendTx) : Int :=
  if 0 < dtx.height then dtx.height + DIVIDEND_MIN_AGE else dtx.height

/-- `GetMoneySupplyAtHeight`: the scheduled rewards below a height. -/
def getMoneySupplyAtHeight (nLastPOWBlock : Nat) (height : Int) : Int :=
  (List.range height.toNat).foldl (fun total i => int64 (total +
    if i ≤ nLastPOWBlock then getBlockSubsidy i else getProofOfStakeReward i 0)) 0

namespace DividendView

variable (v : DividendView)

def isMature (dtx : CDividendTx) : Bool := dtx.height + DIVIDEND_MIN_AGE ≤ v.tipHeight

def isImmature (dtx : CDividendTx) : Bool := !v.isMature dtx

def getCoinSupply (dtx : CDividendTx) : Int :=
  getMoneySupplyAtHeight v.nLastPOWBlock dtx.getMatureHeight

/-! ## The ledger's lists -/

def getOrdered : List CDividendTx := v.std.sort v.dtxOrdered

/-- `GetPayoutsBefore`; without a second argument it is -1. -/
def getPayoutsBefore (dtxIn : CDividendTx) (untilHeight : Int := -1) : List CDividendTx :=
  v.std.sort (v.mapLedger.filter fun tx =>
    tx.height ≤ dtxIn.height && untilHeight < tx.height && dtxIn.hash != tx.hash)

def getPayoutsAfter (dtxIn : CDividendTx) (untilHeight : Int) : List CDividendTx :=
  v.mapLedger.filter fun tx =>
    dtxIn.height ≤ tx.height && tx.height < untilHeight && dtxIn.hash != tx.hash

/-! ## Thresholds -/

def exceedsThresholdSolo (tx : CDividendTx) : Bool :=
  !v.isImmature tx && v.threshold.ge tx.credit (v.getCoinSupply tx)

/-- The loop of `ExceedsThresholdWithPriors`, from the last prior down. `none` is its
`return false`. What is collected is `tx` itself, once for every prior passed. -/
def collectUnpaids (recur : CDividendTx → Bool) (tx : CDividendTx) :
    List CDividendTx → Option (List CDividendTx)
  | [] => some []
  | dtx :: rest =>
    if dtx.height ≠ tx.height then
      if v.isImmature dtx then none
      else if v.exceedsThresholdSolo dtx || recur dtx then some []
      else (collectUnpaids recur tx rest).map (tx :: ·)
    else (collectUnpaids recur tx rest).map (tx :: ·)

/-- `ExceedsThresholdWithPriors`, for a given depth of the recursion. -/
def exceedsThresholdWithPriorsTo : Nat → CDividendTx → Bool
  | 0, _ => false
  | depth + 1, tx =>
    if !v.isImmature tx then false
    else match v.collectUnpaids (exceedsThresholdWithPriorsTo depth) tx
        (v.getPayoutsBefore tx).reverse with
      | none => false
      | some unpaids =>
        v.threshold.ge (tx.credit + (unpaids.map CDividendTx.credit).sum) (v.getCoinSupply tx)

section

variable (tx : CDividendTx)

/-- The recursion is one deep (`exceedsThresholdWithPriorsTo_succ`). -/
def exceedsThresholdWithPriors : Bool := v.exceedsThresholdWithPriorsTo 1 tx

def exceedsThresholdWithSubsequents (blockHeight : Int) : Bool :=
  (v.getPayoutsAfter tx blockHeight).any fun dtx =>
    v.exceedsThresholdSolo dtx || v.exceedsThresholdWithPriors dtx

def doesExceedThreshold : Bool :=
  if v.isImmature tx then false
  else v.exceedsThresholdSolo tx || v.exceedsThresholdWithPriors tx

def exceedsThresholdAt (blockHeight : Int) : Bool :=
  if v.isImmature tx then false
  else v.exceedsThresholdSolo tx || v.exceedsThresholdWithPriors tx ||
    v.exceedsThresholdWithSubsequents tx blockHeight

/-! ## Funds -/

/-- The contributions in the fund at a height. -/
def fundTxsAt (blockHeight : Int) : List CDividendTx :=
  (v.getOrdered.filter fun dividend => dividend.getMatureHeight ≤ blockHeight).filter fun it =>
    !v.exceedsThresholdAt it blockHeight

def getDividendFundAt (blockHeight : Int) : Int := ((v.fundTxsAt blockHeight).map (·.credit)).sum

/-- `GetPaidBlockBefore`: the height of the last payout at another height, or -1. -/
def getPaidBlockBefore : Int :=
  (v.getPayoutsBefore tx).foldl (fun ending dtx =>
    if dtx.height ≠ tx.height ∧ v.doesExceedThreshold dtx then dtx.height else ending) (-1)

/-- `GetExceedChainFor`: what is paid out with a contribution. The priors are only taken along if
they exceed the threshold without it. -/
def getExceedChainFor : List CDividendTx :=
  if v.doesExceedThreshold tx then
    let priors := v.getPayoutsBefore tx (v.getPaidBlockBefore tx)
    (if v.threshold.gt ((priors.map (·.credit)).sum) (v.getCoinSupply tx) then priors else []) ++
      [tx]
  else []

end

/-- What `GetTotalWithDividend` distributes for a paid contribution. -/
def fundOf (dividend : CDividendTx) : Int := ((v.getExceedChainFor dividend).map (·.credit)).sum

/-- One payout on an amount of 256 bits. `none` is the division by zero that throws. -/
def payOut (blockHeight : Int) (bigAmount : Nat) (dividend : CDividendTx) : Option Nat :=
  if blockHeight ≤ dividend.getMatureHeight && v.doesExceedThreshold dividend &&
      v.isMature dividend then
    let total := v.fundOf dividend
    if total = 0 then some bigAmount
    else
      let fund := (total % 2 ^ 64).toNat
      let supply := ((v.getCoinSupply dividend - dividend.credit) % 2 ^ 64).toNat
      if supply = 0 then none
      else some ((bigAmount + bigAmount * fund % 2 ^ 256 / supply) % 2 ^ 256)
  else some bigAmount

/-- `GetTotalWithDividend`: an amount with all the dividends since its height. -/
def getTotalWithDividend (amount blockHeight : Int) : Option Int :=
  (v.getOrdered.foldlM (v.payOut blockHeight) (amount % 2 ^ 64).toNat).map fun bigAmount =>
    int64 (bigAmount % 2 ^ 64 : Nat)

def getDividendPayout (amount blockHeight : Int) : Option Int :=
  (v.getTotalWithDividend amount blockHeight).map fun total =>
    if amount < total then int64 (total - amount) else 0

/-! ## The recursion

The recursion of `ExceedsThresholdWithPriors` ends at once: the function is false on mature
contributions, and is only called again on such (`exceedsThresholdWithPriors_of_mature`).
-/

section

variable {v : DividendView} {tx : CDividendTx}

theorem isImmature_eq_false : v.isImmature tx = false ↔ v.isMature tx = true := by
  rw [isImmature, Bool.not_eq_false']

theorem exceedsThresholdWithPriorsTo_of_mature (h : v.isMature tx = true) (depth : Nat) :
    v.exceedsThresholdWithPriorsTo depth tx = false := by
  cases depth with
  | zero => rfl
  | succ depth =>
    rw [exceedsThresholdWithPriorsTo, isImmature_eq_false.mpr h]
    rfl

theorem exceedsThresholdWithPriors_of_mature (h : v.isMature tx = true) :
    v.exceedsThresholdWithPriors tx = false :=
  exceedsThresholdWithPriorsTo_of_mature h 1

variable {f : CDividendTx → Bool} {d x : CDividendTx} {untilHeight : Int} {l : List CDividendTx}

/-- The function is only called again on mature contributions, where it is false. -/
theorem collectUnpaids_congr {g : CDividendTx → Bool}
    (h : ∀ dtx, v.isMature dtx = true → f dtx = g dtx) (priors : List CDividendTx) :
    v.collectUnpaids f tx priors = v.collectUnpaids g tx priors := by
  induction priors with
  | nil => rfl
  | cons dtx rest ih =>
    rw [collectUnpaids, collectUnpaids, ih]
    cases hmature : v.isImmature dtx with
    | true => rfl
    | false => rw [h dtx (isImmature_eq_false.mp hmature)]

/-- **The recursion ends at once**, whatever depth it is given. -/
theorem exceedsThresholdWithPriorsTo_succ (depth : Nat) :
    v.exceedsThresholdWithPriorsTo (depth + 1) tx = v.exceedsThresholdWithPriors tx := by
  rw [exceedsThresholdWithPriors, exceedsThresholdWithPriorsTo, exceedsThresholdWithPriorsTo]
  rw [collectUnpaids_congr fun dtx hdtx =>
    (exceedsThresholdWithPriorsTo_of_mature hdtx depth).trans
      (exceedsThresholdWithPriorsTo_of_mature hdtx 0).symm]

theorem isMature_of_exceedsThresholdSolo (h : v.exceedsThresholdSolo tx = true) :
    v.isMature tx = true := by
  rw [exceedsThresholdSolo, Bool.and_eq_true, Bool.not_eq_true'] at h
  exact isImmature_eq_false.mp h.1

/-- **A contribution is paid** when it exceeds the threshold by itself; its priors never count. -/
theorem doesExceedThreshold_eq : v.doesExceedThreshold tx = v.exceedsThresholdSolo tx := by
  rw [doesExceedThreshold]
  cases hmature : v.isImmature tx with
  | true =>
    rw [exceedsThresholdSolo, hmature]
    rfl
  | false =>
    rw [exceedsThresholdWithPriors_of_mature (isImmature_eq_false.mp hmature), Bool.or_false]
    rfl

/-! ## Priors

The contributions a paid one takes along (`getPaidBlockBefore_lt_iff`, `mem_getPayoutsBefore`).
-/

theorem mem_getPayoutsBefore : x ∈ v.getPayoutsBefore d untilHeight ↔
      x ∈ v.mapLedger ∧ x.height ≤ d.height ∧ untilHeight < x.height ∧ d.hash ≠ x.hash := by
  rw [getPayoutsBefore, (v.std.perm _).mem_iff, mem_filter]
  simp only [Bool.and_eq_true, decide_eq_true_eq, bne_iff_ne, and_assoc]

theorem mem_getPayoutsAfter : x ∈ v.getPayoutsAfter d untilHeight ↔
      x ∈ v.mapLedger ∧ d.height ≤ x.height ∧ x.height < untilHeight ∧ d.hash ≠ x.hash := by
  rw [getPayoutsAfter, mem_filter]
  simp only [Bool.and_eq_true, decide_eq_true_eq, bne_iff_ne, and_assoc]

/-- A loop that keeps the height of the last hit, over a list in order of height. -/
theorem foldl_last_height {q : CDividendTx → Prop} [DecidablePred q]
    (hsorted : l.Pairwise fun a b => a.height ≤ b.height) (start : Int)
    (hstart : ∀ x ∈ l, start ≤ x.height) :
    let ending := l.foldl (fun ending dtx => if q dtx then dtx.height else ending) start
    (ending = start ∨ ∃ x ∈ l, q x ∧ x.height = ending) ∧ ∀ x ∈ l, q x → x.height ≤ ending := by
  induction l generalizing start with
  | nil => exact ⟨.inl rfl, nofun⟩
  | cons dtx rest ih =>
    rw [pairwise_cons] at hsorted
    rw [foldl_cons]
    by_cases hq : q dtx
    · rw [if_pos hq]
      obtain ⟨hend, hall⟩ := ih hsorted.2 dtx.height hsorted.1
      -- The result is this height or a later one, so it is not below this one.
      have hle : dtx.height ≤ rest.foldl (fun ending dtx => if q dtx then dtx.height else ending)
          dtx.height := by
        rcases hend with heq | ⟨x, hx, -, heq⟩
        · rw [heq]
        · rw [← heq]
          exact hsorted.1 x hx
      refine ⟨.inr ?_, forall_mem_cons.mpr ⟨fun _ => hle, hall⟩⟩
      rcases hend with heq | ⟨x, hx, hqx, heq⟩
      · exact ⟨dtx, by simp, hq, heq.symm⟩
      · exact ⟨x, mem_cons_of_mem _ hx, hqx, heq⟩
    · rw [if_neg hq]
      obtain ⟨hend, hall⟩ := ih hsorted.2 start fun x hx => hstart x (mem_cons_of_mem _ hx)
      refine ⟨hend.imp id ?_, forall_mem_cons.mpr ⟨fun h => absurd h hq, hall⟩⟩
      intro ⟨x, hx, hqx, heq⟩
      exact ⟨x, mem_cons_of_mem _ hx, hqx, heq⟩

/-- **The last payout before.** With heights on a chain, what comes after it is what has no payout
between itself and the contribution. -/
theorem getPaidBlockBefore_lt_iff (hpos : ∀ x ∈ v.mapLedger, 0 < x.height) (hx : x ∈ v.mapLedger) :
    v.getPaidBlockBefore d < x.height ↔ ∀ p ∈ v.mapLedger, v.exceedsThresholdSolo p = true →
      p.height < d.height → d.hash ≠ p.hash → p.height < x.height := by
  have hmem : ∀ p, p ∈ v.getPayoutsBefore d ↔
      p ∈ v.mapLedger ∧ p.height ≤ d.height ∧ d.hash ≠ p.hash := by
    intro p
    rw [mem_getPayoutsBefore]
    refine ⟨fun h => ⟨h.1, h.2.1, h.2.2.2⟩, fun h => ⟨h.1, h.2.1, ?_, h.2.2⟩⟩
    have := hpos p h.1
    omega
  obtain ⟨hend, hall⟩ := foldl_last_height
    (q := fun dtx => dtx.height ≠ d.height ∧ v.doesExceedThreshold dtx = true)
    (v.std.sorted (v.mapLedger.filter fun tx =>
      tx.height ≤ d.height && -1 < tx.height && d.hash != tx.hash)) (-1) (fun p hp => by
        have := hpos p ((hmem p).mp hp).1
        omega)
  have hxpos := hpos x hx
  constructor
  · intro hlt p hp hpaid hbelow hne
    have := hall p ((hmem p).mpr ⟨hp, hbelow.le, hne⟩)
      ⟨hbelow.ne, by rw [doesExceedThreshold_eq]; exact hpaid⟩
    exact lt_of_le_of_lt this hlt
  · intro h
    rcases hend with heq | ⟨p, hp, ⟨hne, hpaid⟩, heq⟩
    · rw [getPaidBlockBefore, getPayoutsBefore, heq]
      omega
    · obtain ⟨hpl, hple, hphash⟩ := (hmem p).mp hp
      rw [doesExceedThreshold_eq] at hpaid
      rw [getPaidBlockBefore, getPayoutsBefore, ← heq]
      exact h p hpl hpaid (lt_of_le_of_ne hple hne) hphash

/-! ## Immature contributions

On these `ExceedsThresholdWithPriors` can be true. It counts the contribution's own credit once
more for each contribution back to the last payout, where the credit of that one is meant. -/

variable (v tx) in
/-- The contributions from `tx` back to the last payout. -/
def unpaidBefore : List CDividendTx :=
  (v.getPayoutsBefore tx).reverse.takeWhile fun dtx =>
    dtx.height = tx.height || !v.exceedsThresholdSolo dtx

theorem isMature_of_le {a b : CDividendTx} (h : b.height ≤ a.height) (ha : v.isMature a = true) :
    v.isMature b = true := by
  rw [isMature, decide_eq_true_eq] at ha ⊢
  omega

theorem collectUnpaids_eq (hf : ∀ dtx, v.isMature dtx = true → f dtx = false)
    (hsorted : l.Pairwise fun a b => b.height ≤ a.height) : v.collectUnpaids f tx l =
      if ∃ dtx ∈ l, dtx.height ≠ tx.height ∧ v.isMature dtx = false then none
      else some (List.replicate (l.takeWhile fun dtx =>
        dtx.height = tx.height || !v.exceedsThresholdSolo dtx).length tx) := by
  induction l with
  | nil => simp [collectUnpaids]
  | cons dtx rest ih =>
    rw [pairwise_cons] at hsorted
    have hrest := ih hsorted.2
    rw [collectUnpaids]
    by_cases hheight : dtx.height = tx.height
    · -- Of the same height: passed, whatever it is.
      rw [if_neg (by simp [hheight]), hrest, takeWhile_cons_of_pos (by simp [hheight])]
      have hiff : (∃ x ∈ dtx :: rest, x.height ≠ tx.height ∧ v.isMature x = false) ↔
          ∃ x ∈ rest, x.height ≠ tx.height ∧ v.isMature x = false := by
        simp [hheight]
      simp only [hiff]
      split
      · rfl
      · rfl
    · rw [if_pos hheight]
      cases hmature : v.isMature dtx with
      | false =>
        rw [isImmature, hmature]
        simp [hheight, hmature]
      | true =>
        -- All that follow are older, hence mature as well.
        have hnone : ¬ ∃ x ∈ dtx :: rest, x.height ≠ tx.height ∧ v.isMature x = false := by
          rintro ⟨x, hx, -, himmature⟩
          have : v.isMature x = true := by
            rcases mem_cons.mp hx with rfl | hx
            · exact hmature
            · exact isMature_of_le (hsorted.1 x hx) hmature
          rw [this] at himmature
          cases himmature
        have hnone' : ¬ ∃ x ∈ rest, x.height ≠ tx.height ∧ v.isMature x = false := by
          intro ⟨x, hx, h⟩
          exact hnone ⟨x, mem_cons_of_mem _ hx, h⟩
        rw [if_neg hnone, isImmature, hmature, hf dtx hmature, Bool.or_false]
        cases hsolo : v.exceedsThresholdSolo dtx with
        | true =>
          rw [takeWhile_cons_of_neg (by simp [hheight, hsolo])]
          rfl
        | false =>
          rw [hrest, if_neg hnone', takeWhile_cons_of_pos (by simp [hsolo])]
          rfl

theorem exceedsThresholdWithPriors_iff :
    v.exceedsThresholdWithPriors tx = true ↔ v.isMature tx = false ∧
      (∀ p ∈ v.getPayoutsBefore tx, p.height ≠ tx.height → v.isMature p = true) ∧
      v.threshold.ge (tx.credit * (1 + (v.unpaidBefore tx).length)) (v.getCoinSupply tx) = true := by
  have hdesc : (v.getPayoutsBefore tx).reverse.Pairwise fun a b => b.height ≤ a.height :=
    pairwise_reverse.mpr (v.std.sorted _)
  rw [exceedsThresholdWithPriors, exceedsThresholdWithPriorsTo,
    collectUnpaids_eq (fun _ hdtx => exceedsThresholdWithPriorsTo_of_mature hdtx 0) hdesc]
  cases hmature : v.isMature tx with
  | true => simp [isImmature, hmature]
  | false =>
    have hiff : (∃ dtx ∈ (v.getPayoutsBefore tx).reverse,
        dtx.height ≠ tx.height ∧ v.isMature dtx = false) ↔
        ¬ ∀ p ∈ v.getPayoutsBefore tx, p.height ≠ tx.height → v.isMature p = true := by
      simp
    simp only [isImmature, hmature, Bool.not_false, Bool.not_true, Bool.false_eq_true, if_false]
    by_cases hpriors : ∀ p ∈ v.getPayoutsBefore tx, p.height ≠ tx.height → v.isMature p = true
    · have hsum : tx.credit + ((List.replicate (v.unpaidBefore tx).length tx).map
          CDividendTx.credit).sum = tx.credit * (1 + (v.unpaidBefore tx).length) := by
        rw [map_replicate, sum_replicate, nsmul_eq_mul, mul_add, mul_one, mul_comm]
      rw [if_neg (by rw [hiff, not_not]; exact hpriors), ← unpaidBefore]
      dsimp only
      rw [hsum]
      exact ⟨fun h => ⟨trivial, hpriors, h⟩, fun h => h.2.2⟩
    · rw [if_pos (hiff.mpr hpriors)]
      refine ⟨fun h => ?_, fun h => absurd h.2.1 hpriors⟩
      cases h

end

end DividendView

end Chratos
