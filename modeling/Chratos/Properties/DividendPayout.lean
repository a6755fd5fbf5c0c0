import Chratos.Properties.DividendAccounting
import Mathlib.Algebra.BigOperators.Ring.Finset

/-!
# Chratos — what a coin receives

`GetTotalWithDividend` folds all payouts since a coin's height over its amount, each time rounding
down. Two results about that fold, for contributions at different heights.
-/

namespace Chratos

open List

variable {d : CDividendTx} {tip' c h h' : Int} {coin : Int × Int}

/-! ## Folds in stages -/

section

variable {α β : Type} {f g : β → α → Option β} {l : List α}

theorem foldlM_congr_mem (h : ∀ x ∈ l, ∀ acc, f acc x = g acc x) (acc : β) :
    l.foldlM f acc = l.foldlM g acc := by
  induction l generalizing acc with
  | nil => rfl
  | cons x l ih =>
    rw [foldlM_cons, foldlM_cons, h x mem_cons_self acc]
    exact congrArg _ (funext fun b => ih (fun y hy => h y (mem_cons_of_mem _ hy)) b)

/-- Elements that change nothing may be left out. -/
theorem foldlM_filter_skip {p : α → Bool} (h : ∀ x ∈ l, p x = false → ∀ acc, f acc x = some acc)
    (acc : β) : (l.filter p).foldlM f acc = l.foldlM f acc := by
  rw [foldlM_filter]
  refine foldlM_congr_mem (fun x hx acc => ?_) acc
  cases hp : p x with
  | true => rfl
  | false => exact (h x hx hp acc).symm

theorem foldlM_skip (h : ∀ x ∈ l, ∀ acc, f acc x = some acc) (acc : β) :
    l.foldlM f acc = some acc := by
  rw [← foldlM_filter_skip (p := fun _ => false) fun x hx _ => h x hx, filter_false]
  rfl

/-- **Two stages.** `f` does what `f₁` does up to some point of the list and what `f₂` does from
there on, where each of the two changes nothing on the part of the other. -/
theorem foldlM_stages {f₁ f₂ : β → α → Option β} (early : α → Prop)
    (hsorted : l.Pairwise fun a b => early b → early a)
    (hearly : ∀ x ∈ l, early x → ∀ acc, f acc x = f₁ acc x ∧ f₂ acc x = some acc)
    (hlate : ∀ x ∈ l, ¬ early x → ∀ acc, f acc x = f₂ acc x ∧ f₁ acc x = some acc) (acc : β) :
    l.foldlM f acc = (l.foldlM f₁ acc).bind fun b => l.foldlM f₂ b := by
  induction l generalizing acc with
  | nil => rfl
  | cons x l ih =>
    rw [pairwise_cons] at hsorted
    have hmem : ∀ y ∈ l, y ∈ x :: l := fun y hy => mem_cons_of_mem _ hy
    by_cases hx : early x
    · have hskip : ∀ b, (x :: l).foldlM f₂ b = l.foldlM f₂ b := fun b => by
        rw [foldlM_cons, (hearly x mem_cons_self hx b).2]
        rfl
      have htail := fun b => ih hsorted.2 (fun y hy => hearly y (hmem y hy))
        (fun y hy => hlate y (hmem y hy)) b
      rw [foldlM_cons, foldlM_cons, (hearly x mem_cons_self hx acc).1,
        Option.bind_eq_bind, Option.bind_assoc]
      refine congrArg _ (funext fun b => ?_)
      rw [htail b]
      exact congrArg _ (funext fun c => (hskip c).symm)
    · -- From here on everything is late: the first stage is over.
      have hrest : ∀ y ∈ x :: l, ¬ early y :=
        forall_mem_cons.mpr ⟨hx, fun y hy hearly' => hx (hsorted.1 y hy hearly')⟩
      rw [foldlM_skip (f := f₁) fun y hy b => (hlate y hy (hrest y hy) b).2]
      exact foldlM_congr_mem (fun y hy b => (hlate y hy (hrest y hy) b).1) acc

end

namespace DividendView

/-! ## A growing chain -/

/-- The ledger when the tip of a growing chain was at the given height: later contributions are not
in it yet. -/
def atTip (v : DividendView) (tip : Int) : DividendView :=
  { v with
    tipHeight := tip
    mapLedger := v.mapLedger.filter fun dtx => dtx.height ≤ tip
    dtxOrdered := v.dtxOrdered.filter fun dtx => dtx.height ≤ tip }

/-- The fold of `GetTotalWithDividend`, before its last line cuts it to 64 bits. -/
def accumulated (v : DividendView) (amount blockHeight : Int) : Option Nat :=
  v.getOrdered.foldlM (v.payOut blockHeight) (amount % 2 ^ 64).toNat

variable {v : DividendView}

theorem getTotalWithDividend_eq (amount blockHeight : Int) :
    v.getTotalWithDividend amount blockHeight =
      (v.accumulated amount blockHeight).map fun bigAmount => int64 (bigAmount % 2 ^ 64 : Nat) :=
  rfl

/-- The mature height follows the height. -/
theorem getMatureHeight_le {a b : CDividendTx} (h : a.height ≤ b.height) :
    a.getMatureHeight ≤ b.getMatureHeight := by
  unfold CDividendTx.getMatureHeight DIVIDEND_MIN_AGE
  split <;> split <;> omega

variable {tip blockHeight : Int}

theorem exceedsThresholdSolo_atTip (h : d.height + DIVIDEND_MIN_AGE ≤ tip) :
    (v.atTip tip).exceedsThresholdSolo d = v.threshold.ge d.credit (v.getCoinSupply d) := by
  have hmature : (v.atTip tip).isMature d = true := decide_eq_true h
  rw [exceedsThresholdSolo, isImmature, hmature]
  rfl

theorem getPayoutsBefore_atTip {untilHeight : Int} (h : d.height ≤ tip) :
    (v.atTip tip).getPayoutsBefore d untilHeight = v.getPayoutsBefore d untilHeight := by
  show v.std.sort ((v.mapLedger.filter fun dtx => dtx.height ≤ tip).filter _) =
    v.std.sort (v.mapLedger.filter _)
  rw [filter_filter]
  refine congrArg _ (filter_congr fun x _ => ?_)
  -- What is not above the contribution is not above the tip.
  by_cases hx : x.height ≤ d.height
  · have : x.height ≤ tip := hx.trans h
    simp [hx, this]
  · simp [hx]

/-- A sum of payouts to the last paid height, for a tip at which the contribution has matured. -/
theorem getPaidBlockBefore_atTip (h : d.height + DIVIDEND_MIN_AGE ≤ tip) :
    (v.atTip tip).getPaidBlockBefore d = (v.getPayoutsBefore d).foldl (fun ending dtx =>
      if dtx.height ≠ d.height ∧ v.threshold.ge dtx.credit (v.getCoinSupply dtx) = true then
        dtx.height else ending) (-1) := by
  have hle : d.height ≤ tip := by
    unfold DIVIDEND_MIN_AGE at h
    omega
  rw [getPaidBlockBefore, getPayoutsBefore_atTip hle]
  refine foldl_ext _ _ _ fun ending dtx hdtx => ?_
  have hprior := (mem_getPayoutsBefore.mp hdtx).2.1
  rw [doesExceedThreshold_eq, exceedsThresholdSolo_atTip (by omega)]

/-- **What is distributed does not depend on the tip**, once the contribution has matured. -/
theorem fundOf_atTip (h : d.height + DIVIDEND_MIN_AGE ≤ tip)
    (h' : d.height + DIVIDEND_MIN_AGE ≤ tip') : (v.atTip tip).fundOf d = (v.atTip tip').fundOf d := by
  have hle : d.height ≤ tip ∧ d.height ≤ tip' := by
    unfold DIVIDEND_MIN_AGE at h h'
    omega
  have hpaid : (v.atTip tip).getPaidBlockBefore d = (v.atTip tip').getPaidBlockBefore d := by
    rw [getPaidBlockBefore_atTip h, getPaidBlockBefore_atTip h']
  have hchain : (v.atTip tip).getExceedChainFor d = (v.atTip tip').getExceedChainFor d := by
    rw [getExceedChainFor, getExceedChainFor, doesExceedThreshold_eq, doesExceedThreshold_eq,
      exceedsThresholdSolo_atTip h, exceedsThresholdSolo_atTip h', hpaid,
      getPayoutsBefore_atTip hle.1, getPayoutsBefore_atTip hle.2]
    rfl
  rw [fundOf, fundOf, hchain]

/-! ## Spending in between -/

/-- Nothing is paid for a contribution that has not matured. -/
theorem payOut_atTip_of_immature (h : tip < d.height + DIVIDEND_MIN_AGE) (acc : Nat) :
    (v.atTip tip).payOut blockHeight acc d = some acc := by
  have hmature : (v.atTip tip).isMature d = false := decide_eq_false (not_le.mpr h)
  rw [payOut, hmature]
  simp

/-- Nothing is paid for a contribution that had matured before the coin was there. -/
theorem payOut_of_before (h : d.getMatureHeight < blockHeight) (acc : Nat) :
    v.payOut blockHeight acc d = some acc := by
  rw [payOut, decide_eq_false (not_le.mpr h)]
  simp

/-- A contribution that has matured is paid alike at every later tip. -/
theorem payOut_atTip (h : d.height + DIVIDEND_MIN_AGE ≤ tip)
    (h' : d.height + DIVIDEND_MIN_AGE ≤ tip') (acc : Nat) :
    (v.atTip tip).payOut blockHeight acc d = (v.atTip tip').payOut blockHeight acc d := by
  have hmature : (v.atTip tip).isMature d = true := decide_eq_true h
  have hmature' : (v.atTip tip').isMature d = true := decide_eq_true h'
  rw [payOut, payOut, doesExceedThreshold_eq, doesExceedThreshold_eq, exceedsThresholdSolo_atTip h,
    exceedsThresholdSolo_atTip h', hmature, hmature', fundOf_atTip h h']
  rfl

section

variable (hheights : (v.dtxOrdered.map (·.height)).Nodup)
include hheights

/-- Sorting contributions of different heights leaves no choice. -/
theorem getOrdered_atTip (tip : Int) :
    (v.atTip tip).getOrdered = v.getOrdered.filter fun dtx => dtx.height ≤ tip := by
  have hperm : (v.atTip tip).getOrdered.Perm (v.getOrdered.filter fun dtx => dtx.height ≤ tip) :=
    (v.std.perm _).trans ((v.std.perm v.dtxOrdered).filter _).symm
  refine hperm.eq_of_pairwise (fun a b ha hb hab hba => ?_) (v.std.sorted _)
    ((v.std.sorted _).filter _)
  have hmem : ∀ x, x ∈ v.getOrdered → x ∈ v.dtxOrdered := fun x hx => (v.std.perm _).mem_iff.mp hx
  have ha' := hmem a (mem_filter.mp (hperm.mem_iff.mp ha)).1
  have hb' := hmem b (mem_filter.mp hb).1
  exact inj_on_of_nodup_map hheights ha' hb' (le_antisymm hab hba)

/-- The fold at an earlier tip, over all contributions. -/
theorem accumulated_atTip (tip amount blockHeight : Int) :
    (v.atTip tip).accumulated amount blockHeight =
      v.getOrdered.foldlM ((v.atTip tip).payOut blockHeight) (amount % 2 ^ 64).toNat := by
  rw [accumulated, getOrdered_atTip hheights]
  refine foldlM_filter_skip (fun d _ hd acc => payOut_atTip_of_immature ?_ acc) _
  rw [decide_eq_false_iff_not] at hd
  unfold DIVIDEND_MIN_AGE
  omega

/-- The payouts up to the block before `h` and those from `h` on are the payouts up to now. -/
theorem accumulated_in_stages (hc : 0 < c) (hch : c < h) (hhh : h < h') (amount : Int) :
    (v.atTip (h' - 1)).accumulated amount c =
      ((v.atTip (h - 1)).accumulated amount c).bind fun bigAmount =>
        v.getOrdered.foldlM ((v.atTip (h' - 1)).payOut h) bigAmount := by
  rw [accumulated_atTip hheights, accumulated_atTip hheights]
  refine foldlM_stages (fun d => d.getMatureHeight < h) ?_ (fun d _ hd acc => ?_)
    (fun d _ hd acc => ?_) _
  · exact (v.std.sorted _).imp fun hab hb => lt_of_le_of_lt (getMatureHeight_le hab) hb
  · refine ⟨?_, payOut_of_before hd acc⟩
    -- A contribution in genesis counts as mature from the start and is before every coin.
    by_cases hpos : 0 < d.height
    · rw [CDividendTx.getMatureHeight, if_pos hpos] at hd
      exact payOut_atTip (by omega) (by omega) acc
    · have hbefore : d.getMatureHeight < c := by
        rw [CDividendTx.getMatureHeight, if_neg hpos]
        omega
      rw [payOut_of_before hbefore, payOut_of_before hbefore]
  · have hpos : 0 < d.height := by
      by_contra hpos
      rw [CDividendTx.getMatureHeight, if_neg hpos] at hd
      omega
    have hmature : d.getMatureHeight = d.height + DIVIDEND_MIN_AGE := if_pos hpos
    refine ⟨?_, payOut_atTip_of_immature (by omega) acc⟩
    rw [payOut, payOut, decide_eq_true (show c ≤ d.getMatureHeight by omega),
      decide_eq_true (show h ≤ d.getMatureHeight by omega)]

end

/-- **Dividends are paid once along a lineage of spends.** On a growing chain with contributions at
different heights, a coin of height `c` that is spent at height `h` has at `h'` what the unspent
coin would have, provided the amount it was spent with fits a signed 64-bit number. -/
theorem dividends_paid_once (hheights : (v.dtxOrdered.map (·.height)).Nodup)
    (hc : 0 < c) (hch : c < h) (hhh : h < h') (amount : Int)
    (hfits : ∀ bigAmount ∈ (v.atTip (h - 1)).accumulated amount c, bigAmount < 2 ^ 63) :
    (((v.atTip (h - 1)).getTotalWithDividend amount c).bind fun total =>
      (v.atTip (h' - 1)).getTotalWithDividend total h) =
      (v.atTip (h' - 1)).getTotalWithDividend amount c := by
  rw [getTotalWithDividend_eq, getTotalWithDividend_eq, accumulated_in_stages hheights hc hch hhh]
  cases hacc : (v.atTip (h - 1)).accumulated amount c with
  | none => rfl
  | some bigAmount =>
    have hlt := hfits bigAmount hacc
    have hexact : int64 (bigAmount % 2 ^ 64 : Nat) = bigAmount := by
      rw [Nat.mod_eq_of_lt (by omega)]
      exact int64_eq_self (by omega) (by omega)
    have hagain : ((bigAmount : Int) % 2 ^ 64).toNat = bigAmount := by omega
    show (v.atTip (h' - 1)).getTotalWithDividend (int64 (bigAmount % 2 ^ 64 : Nat)) h = _
    rw [hexact, getTotalWithDividend_eq, accumulated_atTip hheights, hagain]
    rfl

/-! ## What is minted -/

/-- Shares that are rounded down add up to no more than the rounded share of the sum. -/
theorem sum_mint_le (amounts : List Nat) (fund supply : Nat) :
    (amounts.map fun a => a * fund / supply).sum ≤ amounts.sum * fund / supply := by
  induction amounts with
  | nil => simp
  | cons a amounts ih =>
    rw [map_cons, sum_cons, sum_cons, add_mul]
    calc a * fund / supply + (amounts.map fun a => a * fund / supply).sum
        ≤ a * fund / supply + amounts.sum * fund / supply := Nat.add_le_add_left ih _
      _ ≤ (a * fund + amounts.sum * fund) / supply := Nat.div_add_div_le_add_div

/-- A coin that is there when a contribution matures. -/
def eligible (d : CDividendTx) (coin : Int × Int) : Bool := coin.2 ≤ d.getMatureHeight

/-- What a coin has come to after the first contributions of the ledger. -/
def accumulatedIn (v : DividendView) (done : List CDividendTx) (coin : Int × Int) : Nat :=
  (done.foldlM (v.payOut coin.2) (coin.1 % 2 ^ 64).toNat).getD 0

/-- The coins that receive a payout do not exceed the supply it is computed for. -/
def WithinSupply (v : DividendView) (coins : List (Int × Int)) : Prop :=
  ∀ done d rest, v.getOrdered = done ++ d :: rest → v.doesExceedThreshold d = true →
    0 < v.getCoinSupply d - d.credit ∧
      (((coins.filter (eligible d)).map (v.accumulatedIn done)).sum : Int) ≤
        v.getCoinSupply d - d.credit

theorem getCoinSupply_lt (d : CDividendTx) : v.getCoinSupply d < 2 ^ 63 := by
  rw [getCoinSupply, getMoneySupplyAtHeight]
  generalize range _ = l
  rcases eq_nil_or_concat l with rfl | ⟨l, i, rfl⟩
  · exact Int.pow_pos (by decide)
  · rw [concat_eq_append, foldl_append]
    exact int64_lt _

section

variable (hcredit : ∀ x ∈ v.mapLedger, 0 ≤ x.credit)

include hcredit

/-- The distributed credits are amounts of money. -/
theorem fundOf_nonneg (hd : 0 ≤ d.credit) : 0 ≤ v.fundOf d := by
  refine sum_nonneg fun credit hmem => ?_
  obtain ⟨x, hx, rfl⟩ := mem_map.mp hmem
  rw [getExceedChainFor] at hx
  split at hx
  · rcases mem_append.mp hx with hprior | hself
    · split at hprior
      · exact hcredit x (mem_getPayoutsBefore.mp hprior).1
      · cases hprior
    · rw [mem_singleton.mp hself]
      exact hd
  · cases hx

/-- What an amount receives by its part of the supply, without the cuts to 64 bits. -/
def portion (v : DividendView) (d : CDividendTx) (acc : Nat) : Nat :=
  acc * (v.fundOf d).toNat / (v.getCoinSupply d - d.credit).toNat

/-- One payout on an amount within the supply: no wrap, no division by zero, and at most the portion
of the amount. -/
theorem payOut_of_le (hd : 0 ≤ d.credit) {acc : Nat} (hpos : 0 < v.getCoinSupply d - d.credit)
    (hacc : (acc : Int) ≤ v.getCoinSupply d - d.credit) (blockHeight : Int) :
    ∃ mint, v.payOut blockHeight acc d = some (acc + mint) ∧ mint ≤ v.portion d acc := by
  have hsupply : ((v.getCoinSupply d - d.credit) % 2 ^ 64).toNat =
      (v.getCoinSupply d - d.credit).toNat := by
    have := getCoinSupply_lt (v := v) d
    omega
  have hfund := fundOf_nonneg hcredit hd
  have hle : (v.fundOf d % 2 ^ 64).toNat ≤ (v.fundOf d).toNat := by omega
  have hlt : (v.fundOf d % 2 ^ 64).toNat < 2 ^ 64 := by omega
  have hsmall : acc < 2 ^ 63 := by
    have := getCoinSupply_lt (v := v) d
    omega
  rw [payOut]
  split
  · dsimp only
    split
    · exact ⟨0, rfl, Nat.zero_le _⟩
    · rw [hsupply, if_neg (by omega)]
      have hprod : acc * (v.fundOf d % 2 ^ 64).toNat < 2 ^ 63 * 2 ^ 64 :=
        Nat.mul_lt_mul'' hsmall hlt
      have hdiv := Nat.div_le_self (acc * (v.fundOf d % 2 ^ 64).toNat)
        (v.getCoinSupply d - d.credit).toNat
      refine ⟨acc * (v.fundOf d % 2 ^ 64).toNat / (v.getCoinSupply d - d.credit).toNat, ?_, ?_⟩
      · have hwrap : acc * (v.fundOf d % 2 ^ 64).toNat < 2 ^ 256 := by omega
        rw [Nat.mod_eq_of_lt hwrap, Nat.mod_eq_of_lt (by omega)]
      · exact Nat.div_le_div_right (Nat.mul_le_mul_left _ hle)
  · exact ⟨0, rfl, Nat.zero_le _⟩

end

/-! ### All coins -/

section

variable {coins : List (Int × Int)}

/-- Where a contribution is not paid, or the coin came later, the amount stays. -/
theorem payOut_eq_self
    (h : ¬ (eligible d coin = true ∧ v.doesExceedThreshold d = true)) (acc : Nat) :
    v.payOut coin.2 acc d = some acc := by
  have hskip : (decide (coin.2 ≤ d.getMatureHeight) && v.doesExceedThreshold d) = false := by
    rw [← Bool.not_eq_true, Bool.and_eq_true]
    exact h
  rw [payOut, hskip]
  rfl

/-- The coins after some contributions: the fold has not thrown, a coin has not lost anything, and
one that has received something is an amount that fits 63 bits. -/
structure Grown (v : DividendView) (done : List CDividendTx) (coin : Int × Int) : Prop where
  eq_some : done.foldlM (v.payOut coin.2) (coin.1 % 2 ^ 64).toNat = some (v.accumulatedIn done coin)
  le : (coin.1 % 2 ^ 64).toNat ≤ v.accumulatedIn done coin
  fits : v.accumulatedIn done coin = (coin.1 % 2 ^ 64).toNat ∨ (coin.1 % 2 ^ 64).toNat < 2 ^ 63

variable {done rest : List CDividendTx}

section

variable (hcredit : ∀ x ∈ v.mapLedger, 0 ≤ x.credit) (hd : 0 ≤ d.credit)
  (hwithin : v.WithinSupply coins) (hsplit : v.getOrdered = done ++ d :: rest)

include hcredit hd hwithin hsplit

/-- One more contribution, for one coin: what it receives is its share. -/
theorem Grown.step (hcoin : coin ∈ coins) (h : v.Grown done coin) :
    v.Grown (done ++ [d]) coin ∧ v.accumulatedIn (done ++ [d]) coin ≤ v.accumulatedIn done coin +
      if eligible d coin = true ∧ v.doesExceedThreshold d = true then
        v.portion d (v.accumulatedIn done coin) else 0 := by
  have hfold : (done ++ [d]).foldlM (v.payOut coin.2) (coin.1 % 2 ^ 64).toNat =
      v.payOut coin.2 (v.accumulatedIn done coin) d := by
    rw [foldlM_append, h.eq_some]
    exact Option.bind_fun_some _
  obtain ⟨mint, hmint, hfits, hshare⟩ : ∃ mint,
      v.payOut coin.2 (v.accumulatedIn done coin) d = some (v.accumulatedIn done coin + mint) ∧
      (mint = 0 ∨ (coin.1 % 2 ^ 64).toNat < 2 ^ 63) ∧
      mint ≤ if eligible d coin = true ∧ v.doesExceedThreshold d = true then
        v.portion d (v.accumulatedIn done coin) else 0 := by
    by_cases hpaid : eligible d coin = true ∧ v.doesExceedThreshold d = true
    · obtain ⟨hpos, hsum⟩ := hwithin done d rest hsplit hpaid.2
      -- A coin is not more than all coins together.
      have hle : (v.accumulatedIn done coin : Int) ≤ v.getCoinSupply d - d.credit := by
        refine le_trans ?_ hsum
        exact_mod_cast le_sum_of_mem (mem_map_of_mem (mem_filter.mpr ⟨hcoin, hpaid.1⟩))
      obtain ⟨mint, hmint, hshare⟩ := payOut_of_le hcredit hd hpos hle coin.2
      have hlt := getCoinSupply_lt (v := v) d
      have hgrown := h.le
      exact ⟨mint, hmint, .inr (by omega), by rwa [if_pos hpaid]⟩
    · exact ⟨0, payOut_eq_self hpaid _, .inl rfl, Nat.zero_le _⟩
  have hacc : v.accumulatedIn (done ++ [d]) coin = v.accumulatedIn done coin + mint := by
    rw [accumulatedIn, hfold, hmint]
    rfl
  refine ⟨⟨by rw [hfold, hmint, hacc], ?_, ?_⟩, ?_⟩
  · rw [hacc]
    exact h.le.trans (Nat.le_add_right _ _)
  · rw [hacc]
    exact hfits.elim (fun hzero => hzero ▸ h.fits) .inr
  · rw [hacc]
    exact Nat.add_le_add_left hshare _

/-- One more contribution, for all coins: together they receive at most what it distributes. -/
theorem sum_accumulatedIn_step (h : ∀ coin ∈ coins, v.Grown done coin) :
    (coins.map (v.accumulatedIn (done ++ [d]))).sum ≤ (coins.map (v.accumulatedIn done)).sum +
      if v.doesExceedThreshold d = true then (v.fundOf d).toNat else 0 := by
  refine (sum_le_sum fun coin hcoin =>
    (Grown.step hcredit hd hwithin hsplit hcoin (h coin hcoin)).2).trans ?_
  rw [sum_map_add]
  refine Nat.add_le_add_left ?_ _
  cases hpaid : v.doesExceedThreshold d with
  | false => simp
  | true =>
    obtain ⟨hpos, hsum⟩ := hwithin done d rest hsplit hpaid
    have hnat : ((coins.filter (eligible d)).map (v.accumulatedIn done)).sum ≤
        (v.getCoinSupply d - d.credit).toNat := by omega
    have hshares : (coins.map fun coin => if eligible d coin = true ∧ true = true then
        v.portion d (v.accumulatedIn done coin) else 0).sum =
          (((coins.filter (eligible d)).map (v.accumulatedIn done)).map (v.portion d)).sum := by
      simp [sum_map_ite, Function.comp_def]
    rw [hshares]
    calc _ ≤ v.portion d ((coins.filter (eligible d)).map (v.accumulatedIn done)).sum :=
        sum_mint_le _ _ _
      _ ≤ v.portion d (v.getCoinSupply d - d.credit).toNat :=
        Nat.div_le_div_right (Nat.mul_le_mul_right _ hnat)
      _ = (v.fundOf d).toNat := Nat.mul_div_cancel_left _ (by omega)

end

/-- **The run**: after any number of contributions the coins have together received at most what
was distributed. -/
theorem sum_accumulatedIn_le (hcredit : ∀ x ∈ v.mapLedger, 0 ≤ x.credit)
    (hordered : ∀ x ∈ v.getOrdered, 0 ≤ x.credit) (hwithin : v.WithinSupply coins)
    (hsplit : v.getOrdered = done ++ rest) : (∀ coin ∈ coins, v.Grown done coin) ∧
      (coins.map (v.accumulatedIn done)).sum ≤ (coins.map (v.accumulatedIn [])).sum +
        ((done.filter v.doesExceedThreshold).map fun d => (v.fundOf d).toNat).sum := by
  induction done using reverseRecOn generalizing rest with
  | nil => exact ⟨fun coin _ => ⟨rfl, le_rfl, .inl rfl⟩, by simp⟩
  | append_singleton done d ih =>
    rw [append_assoc] at hsplit
    obtain ⟨hgrown, hsum⟩ := ih hsplit
    have hd : 0 ≤ d.credit := hordered d (by rw [hsplit]; simp)
    refine ⟨fun coin hcoin => (Grown.step hcredit hd hwithin hsplit hcoin (hgrown coin hcoin)).1, ?_⟩
    have hstep := sum_accumulatedIn_step hcredit hd hwithin hsplit hgrown
    rw [filter_append, map_append, sum_append]
    cases hpaid : v.doesExceedThreshold d with
    | true =>
      rw [hpaid, if_pos rfl] at hstep
      rw [filter_cons_of_pos hpaid, filter_nil, map_singleton, sum_singleton]
      omega
    | false =>
      rw [hpaid] at hstep
      simp only [Bool.false_eq_true, if_false] at hstep
      omega

/-- The last line cuts to 64 bits; that never makes a payout larger. -/
theorem getDividendPayout_le (hcoin : -2 ^ 63 ≤ coin.1 ∧ coin.1 < 2 ^ 63)
    (h : v.Grown v.getOrdered coin) : ∃ payout, v.getDividendPayout coin.1 coin.2 = some payout ∧
      payout ≤ v.accumulatedIn v.getOrdered coin - v.accumulatedIn [] coin := by
  have hstart : v.accumulatedIn [] coin = (coin.1 % 2 ^ 64).toNat := rfl
  rw [getDividendPayout, getTotalWithDividend, h.eq_some]
  refine ⟨_, rfl, ?_⟩
  dsimp only
  rcases h.fits with hsame | hsmall
  · -- Nothing was received: the amount is read back as it was.
    have htotal : int64 (v.accumulatedIn v.getOrdered coin % 2 ^ 64 : Nat) = coin.1 := by
      rw [hsame, int64, Int.bmod_def]
      split <;> omega
    omega
  · have hamount : coin.1 = (coin.1 % 2 ^ 64).toNat := by omega
    have htotal := int64_le_self (x := (v.accumulatedIn v.getOrdered coin % 2 ^ 64 : Nat)) (by omega)
    have hle := h.le
    split
    · rename_i hlt
      have hdiff := int64_le_self (x := int64 (v.accumulatedIn v.getOrdered coin % 2 ^ 64 : Nat) -
        coin.1) (by omega)
      omega
    · omega

theorem sum_payouts_le (hcoins : ∀ coin ∈ coins, -2 ^ 63 ≤ coin.1 ∧ coin.1 < 2 ^ 63)
    (h : ∀ coin ∈ coins, v.Grown v.getOrdered coin) :
    ∃ payouts, coins.mapM (fun coin => v.getDividendPayout coin.1 coin.2) = some payouts ∧
      payouts.sum ≤ (coins.map (v.accumulatedIn v.getOrdered)).sum -
        (coins.map (v.accumulatedIn [])).sum := by
  induction coins with
  | nil => exact ⟨[], rfl, le_rfl⟩
  | cons coin coins ih =>
    rw [forall_mem_cons] at hcoins h
    obtain ⟨payout, hpayout, hle⟩ := getDividendPayout_le hcoins.1 h.1
    obtain ⟨payouts, hpayouts, hsum⟩ := ih hcoins.2 h.2
    refine ⟨payout :: payouts, ?_, ?_⟩
    · rw [mapM_cons, hpayout, hpayouts]
      rfl
    · rw [sum_cons, map_cons, map_cons, sum_cons, sum_cons]
      omega

/-- **Minting is bounded by the distributed funds.** If at every payout the eligible coins are,
with what they have received before, within the supply the payout is computed for, then all coins
together receive at most the credits that are paid out. -/
theorem minted_le_funds (hordered : v.dtxOrdered.Perm v.mapLedger)
    (hcredit : ∀ x ∈ v.mapLedger, 0 ≤ x.credit)
    (hcoins : ∀ coin ∈ coins, -2 ^ 63 ≤ coin.1 ∧ coin.1 < 2 ^ 63) (hwithin : v.WithinSupply coins) :
    ∃ payouts, coins.mapM (fun coin => v.getDividendPayout coin.1 coin.2) = some payouts ∧
      payouts.sum ≤ ((v.mapLedger.filter v.doesExceedThreshold).map v.fundOf).sum := by
  have hperm : v.getOrdered.Perm v.mapLedger := (v.std.perm _).trans hordered
  have hcredit' : ∀ x ∈ v.getOrdered, 0 ≤ x.credit := fun x hx => hcredit x (hperm.mem_iff.mp hx)
  obtain ⟨hgrown, hsum⟩ :=
    sum_accumulatedIn_le hcredit hcredit' hwithin (append_nil v.getOrdered).symm
  obtain ⟨payouts, hpayouts, hle⟩ := sum_payouts_le hcoins hgrown
  refine ⟨payouts, hpayouts, ?_⟩
  have hfunds : (((v.getOrdered.filter v.doesExceedThreshold).map fun d => (v.fundOf d).toNat).sum :
      Int) = ((v.mapLedger.filter v.doesExceedThreshold).map v.fundOf).sum := by
    rw [← ((hperm.filter v.doesExceedThreshold).map v.fundOf).sum_eq, Nat.cast_list_sum, map_map]
    refine congrArg _ (map_congr_left fun d hd => ?_)
    exact Int.toNat_of_nonneg (fundOf_nonneg hcredit (hcredit' d (mem_filter.mp hd).1))
  omega

end

end DividendView

/-! ## Two contributions -/

def twoContributions : DividendView := ledgerView [largeContribution 1 2, largeContribution 2 5]

/-- A coin of a thousand coins from height 1, spent at height 13 between the two payouts. -/
theorem dividends_paid_once_between :
    (((twoContributions.atTip (13 - 1)).getTotalWithDividend (1000 * COIN) 1).bind fun total =>
      (twoContributions.atTip (16 - 1)).getTotalWithDividend total 13) = some 100190401106 := by
  have hfits : (twoContributions.atTip (13 - 1)).accumulated (1000 * COIN) 1 =
      some 100105738647 := by decide +kernel
  rw [DividendView.dividends_paid_once (by decide) (by decide) (by decide) (by decide)]
  · decide +kernel
  · rw [hfits]
    rintro bigAmount ⟨⟩
    decide

theorem twoContributions_withinSupply :
    twoContributions.WithinSupply [(1000 * COIN, 1), (5 * COIN, 13)] := by
  have hordered : twoContributions.getOrdered = [largeContribution 1 2, largeContribution 2 5] := by
    decide +kernel
  intro done d rest hsplit
  rw [hordered] at hsplit
  rcases done with _ | ⟨x, _ | ⟨y, done⟩⟩
  · obtain ⟨rfl, rfl⟩ := cons.inj hsplit
    exact fun _ => by decide +kernel
  · obtain ⟨rfl, hrest⟩ := cons.inj hsplit
    obtain ⟨rfl, -⟩ := cons.inj hrest
    exact fun _ => by decide +kernel
  · cases done <;> cases hsplit

/-- An old coin receives both payouts, a newer one the second: less than the two thousand coins that
are distributed. -/
theorem minted_le_two_thousand : ∃ payouts, [((1000 * COIN, 1) : Int × Int), (5 * COIN, 13)].mapM
      (fun coin => twoContributions.getDividendPayout coin.1 coin.2) = some payouts ∧
      payouts.sum ≤ 2000 * COIN := by
  have hfunds : ((twoContributions.mapLedger.filter twoContributions.doesExceedThreshold).map
      twoContributions.fundOf).sum = 2000 * COIN := by decide +kernel
  rw [← hfunds]
  exact DividendView.minted_le_funds (List.Perm.refl _) (by decide) (by decide)
    twoContributions_withinSupply

end Chratos
