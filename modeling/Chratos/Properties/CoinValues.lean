import Chratos.Properties.DividendPayout
import Chratos.Wallet.DividendCredit

/-!
# Chratos — the worth of a coin to the wallet and to consensus

Consensus values a coin at `GetTotalWithDividend` of its amount and the height stored with it
(`CCoins::GetAvailableAmount`). The wallet adds `GetDividendPayout` to the amount, with the height
of the block it knows the transaction to be in; a payout is never negative.

A payout that is large against the supply left makes more of a coin than 63 bits hold, and the cut
to 64 bits may leave a negative number (`coin_worth_less_than_nothing`).
-/

namespace Chratos

open Effects DividendView Option CWallet

/-- `CCoins::GetAvailableAmount`; nothing if the output is not there, or on a division by zero. -/
def CCoins.getAvailableAmount (v : DividendView) (coins : CCoins) (outIndex : Nat) : Option Int :=
  coins.vout[outIndex]?.bind fun o => v.getTotalWithDividend o.nValue coins.nHeight

/-! ## Payouts without a bound

The same fold in natural numbers. As long as its result fits 63 bits nothing of the 256-bit arithmetic
wraps around, and the cut at the end changes nothing. -/

namespace DividendView

variable (v : DividendView)

/-- What an amount receives from a contribution. -/
def share (blockHeight : Int) (amount : Nat) (d : CDividendTx) : Nat :=
  if blockHeight ≤ d.getMatureHeight && v.doesExceedThreshold d && v.isMature d then
    amount * (v.fundOf d % 2 ^ 64).toNat / ((v.getCoinSupply d - d.credit) % 2 ^ 64).toNat
  else 0

def withShares (blockHeight : Int) : List CDividendTx → Nat → Nat
  | [], amount => amount
  | d :: rest, amount => withShares blockHeight rest (amount + v.share blockHeight amount d)

/-- An amount with all the dividends since its height. -/
def exactTotal (amount blockHeight : Int) : Nat := v.withShares blockHeight v.getOrdered amount.toNat

variable {v} {blockHeight : Int} {amount : Nat} {l : List CDividendTx}

theorem le_withShares : amount ≤ v.withShares blockHeight l amount := by
  induction l generalizing amount with
  | nil => exact le_refl amount
  | cons d rest ih => exact (Nat.le_add_right amount _).trans ih

/-- One payout that leaves the amount within 63 bits does not wrap. -/
theorem payOut_eq_share {d : CDividendTx} {total : Nat} (hfits : amount < 2 ^ 63)
    (hsum : amount + v.share blockHeight amount d < 2 ^ 63)
    (hpaid : v.payOut blockHeight amount d = some total) :
      total = amount + v.share blockHeight amount d := by
  unfold share at hsum ⊢
  unfold payOut at hpaid
  dsimp only at hpaid
  split at hpaid
  · rename_i hdue
    rw [if_pos hdue] at hsum ⊢
    have hproduct : amount * (v.fundOf d % 2 ^ 64).toNat < 2 ^ 63 * 2 ^ 64 :=
      Nat.mul_lt_mul'' hfits (by omega)
    split at hpaid
    · rename_i hzero
      simpa [hzero] using hpaid.symm
    · split at hpaid
      · cases hpaid
      · cases hpaid
        rw [Nat.mod_eq_of_lt (hproduct.trans (by decide)), Nat.mod_eq_of_lt (hsum.trans (by decide))]
  · rename_i hdue
    rw [if_neg hdue]
    exact (some.inj hpaid).symm

/-- All payouts, for a result within 63 bits. -/
theorem foldlM_payOut_eq {total : Nat} (hfits : v.withShares blockHeight l amount < 2 ^ 63)
    (hpaid : l.foldlM (v.payOut blockHeight) amount = some total) :
    total = v.withShares blockHeight l amount := by
  induction l generalizing amount with
  | nil => exact (some.inj hpaid).symm
  | cons d rest ih =>
    rw [List.foldlM_cons] at hpaid
    obtain ⟨next, hnext, hrest⟩ := bind_eq_some_iff.mp hpaid
    have hsum : amount + v.share blockHeight amount d < 2 ^ 63 := le_withShares.trans_lt hfits
    rw [payOut_eq_share (by omega) hsum hnext] at hrest
    exact ih hfits hrest

/-- **The total is exact** where it fits 63 bits. -/
theorem getTotalWithDividend_eq_exactTotal {nValue total : Int} (hrange : moneyRange nValue = true)
    (hfits : v.exactTotal nValue blockHeight < 2 ^ 63)
    (htotal : v.getTotalWithDividend nValue blockHeight = some total) :
    total = v.exactTotal nValue blockHeight := by
  have hmoney := moneyRange_iff.mp hrange
  rw [max_money_eq] at hmoney
  have hstart : (nValue % 2 ^ 64).toNat = nValue.toNat := by omega
  obtain ⟨bigAmount, hfold, rfl⟩ := map_eq_some_iff.mp htotal
  rw [hstart] at hfold
  unfold exactTotal at hfits ⊢
  rw [foldlM_payOut_eq hfits hfold, Nat.mod_eq_of_lt (hfits.trans (by decide))]
  exact int64_eq_self (by omega) (by omega)

end DividendView

variable {ι : Type} [LinearOrder ι]

/-- An output of a confirmed wallet transaction that is not spent: the block of the transaction is
in the active chain, the entry in the coins database has its height, and the output is the wallet's.
-/
structure ConfirmedCoin (w : CWallet ι) (v : DividendView) (s : BlockMap ι) (wtx : CWalletTx ι)
    (coins : CCoins)
    (outputIndex : Nat) (txout : CTxOut) : Prop where
  payout : ∀ amount height, w.getDividendPayout amount height = v.getDividendPayout amount height
  output : wtx.vout[outputIndex]? = some txout
  unspent : coins.vout[outputIndex]? = some txout
  block : ∃ pindex, s.mapBlockIndex.find wtx.hashBlock = some (some pindex) ∧
    s.tree.contains pindex = true ∧ coins.nHeight = s.tree.nHeight pindex
  mine : w.isMine txout = true
  range : moneyRange txout.nValue = true

namespace ConfirmedCoin

variable {w : CWallet ι} {v : DividendView} {s : BlockMap ι} {wtx : CWalletTx ι} {coins : CCoins}
  {outputIndex : Nat} {txout : CTxOut}

section

variable (h : ConfirmedCoin w v s wtx coins outputIndex txout)

include h

theorem consensus_eq :
    coins.getAvailableAmount v outputIndex = v.getTotalWithDividend txout.nValue coins.nHeight := by
  rw [CCoins.getAvailableAmount, h.unspent]
  rfl

/-- How a division by zero ends the wallet's functions, and consensus'. -/
def orDivisionByZero : Option Int → Except WalletThrow Int
  | none => .error .divisionByZero
  | some credit => .ok credit

/-- The dividend the wallet adds is the payout for the height in the coins database. -/
theorem getDividendCredit_eq : w.getDividendCredit txout wtx s =
      (orDivisionByZero (v.getDividendPayout txout.nValue coins.nHeight), s) := by
  obtain ⟨pindex, hfind, _, hheight⟩ := h.block
  have hmem : wtx.vout.contains txout = true := by
    rw [List.contains_iff_mem]
    exact List.mem_of_getElem? h.output
  have hcredit : w.getCredit txout s = (.ok txout.nValue, s) := by
    simp only [getCredit, h.range, h.mine, Bool.not_true, Bool.false_eq_true, if_false, if_true]
    rfl
  have hblock : subscriptBlock wtx.hashBlock s = (.ok (some pindex), s) := by
    show (Except.ok (s.mapBlockIndex.subscript none wtx.hashBlock).2,
      { s with mapBlockIndex := (s.mapBlockIndex.subscript none wtx.hashBlock).1 }) = _
    rw [StdMap.subscript, hfind]
  unfold getDividendCredit dividendCredit
  rw [bind_apply_ok hcredit, bind_apply_ok hblock, hheight, ← h.payout]
  simp only [hmem, Bool.not_true, Bool.false_eq_true, if_false]
  have hget : (get : WalletM ι (BlockMap ι)) s = (.ok s, s) := rfl
  rw [bind_apply_ok hget]
  cases w.getDividendPayout txout.nValue (s.tree.nHeight pindex) with
  | none => rfl
  | some credit => rfl

/-- **The wallet's amount** is the larger of what is written in the coin and what consensus sees. -/
theorem getAvailableAmount_eq_max : (w.getAvailableAmount wtx outputIndex s).1.toOption =
      (coins.getAvailableAmount v outputIndex).map (max txout.nValue) := by
  have hcredit := h.getDividendCredit_eq
  rw [h.consensus_eq]
  unfold getAvailableAmount
  rw [h.output]
  unfold DividendView.getDividendPayout at hcredit
  cases htotal : v.getTotalWithDividend txout.nValue coins.nHeight with
  | none =>
    rw [htotal] at hcredit
    show ((w.getDividendCredit txout wtx >>= _) s).1.toOption = _
    rw [bind_apply_error hcredit]
    rfl
  | some total =>
    rw [htotal] at hcredit
    show ((w.getDividendCredit txout wtx >>= _) s).1.toOption = _
    rw [bind_apply_ok hcredit]
    show some
      (int64 (txout.nValue + if txout.nValue < total then int64 (total - txout.nValue) else 0)) =
      some (max txout.nValue total)
    have hrange := moneyRange_iff.mp h.range
    rw [max_money_eq] at hrange
    split
    · next hlt =>
      -- The difference is a 64-bit number, for the total is one.
      have htotalFits : int64 total = total := by
        obtain ⟨n, _, rfl⟩ := map_eq_some_iff.mp htotal
        exact int64_int64 _
      rw [int64_add_int64, add_sub_cancel, htotalFits, max_eq_right hlt.le]
    · next hle =>
      rw [add_zero, int64_eq_self (by omega) (by omega), max_eq_left (not_lt.mp hle)]

/-- What consensus sees, where it does not throw. -/
theorem consensus_exact (hfits : v.exactTotal txout.nValue coins.nHeight < 2 ^ 63) {total : Int}
    (htotal : total ∈ coins.getAvailableAmount v outputIndex) :
    total = v.exactTotal txout.nValue coins.nHeight :=
  getTotalWithDividend_eq_exactTotal h.range hfits (h.consensus_eq ▸ htotal)

theorem wallet_eq_consensus (hfits : v.exactTotal txout.nValue coins.nHeight < 2 ^ 63) :
    (w.getAvailableAmount wtx outputIndex s).1.toOption = coins.getAvailableAmount v outputIndex := by
  rw [h.getAvailableAmount_eq_max]
  cases htotal : coins.getAvailableAmount v outputIndex with
  | none => rfl
  | some total =>
    have hgrown : txout.nValue.toNat ≤ v.exactTotal txout.nValue coins.nHeight := le_withShares
    have hle : txout.nValue ≤ total := by
      rw [h.consensus_exact hfits htotal]
      omega
    exact congrArg some (max_eq_right hle)

/-- **Wallet and consensus agree** on the worth of a coin that fits 63 bits with all its payouts: it
is its amount and these. -/
theorem getAvailableAmount_agrees (hfits : v.exactTotal txout.nValue coins.nHeight < 2 ^ 63) :
    (w.getAvailableAmount wtx outputIndex s).1.toOption = coins.getAvailableAmount v outputIndex ∧
      ∀ total ∈ coins.getAvailableAmount v outputIndex,
        total = v.exactTotal txout.nValue coins.nHeight :=
  ⟨h.wallet_eq_consensus hfits, fun _ => h.consensus_exact hfits⟩

end

end ConfirmedCoin

/-! ## A chain of twenty blocks -/

/-- A chain in which each block has its height for its hash. -/
def straightMap : BlockMap Nat where
  tree := { nHeight := id, vChain := List.range 21 }
  mapBlockIndex := (List.range 21).map fun h => (h, some h)
  phashBlock := some

/-- A transaction with one output, in the block at height 1. -/
def holderTx (nValue : Int) : CWalletTx Nat where
  vout := [⟨nValue, []⟩]
  hashBlock := 1
  nIndex := 0
  fGenerated := false
  fFinal := true
  fFromMe := false

def holderWallet (v : DividendView) : CWallet Nat where
  mapWallet := []
  isMine := fun _ => true
  isSpent := fun _ _ => false
  isSpentAt := fun _ _ _ => false
  getDividendPayout := fun amount height => v.getDividendPayout amount height
  getDividendPayoutUntil := fun _ _ _ => some 0
  hashNull := 100
  hashAbandon := 101

/-- The entry of that transaction in the coins database. -/
def holderCoins (nValue : Int) : CCoins where
  vout := [⟨nValue, []⟩]
  nHeight := 1

theorem holder_confirmed (v : DividendView) {nValue : Int} (hrange : moneyRange nValue = true) :
    ConfirmedCoin (holderWallet v) v straightMap (holderTx nValue) (holderCoins nValue) 0
      ⟨nValue, []⟩ where
  payout _ _ := rfl
  output := rfl
  unspent := rfl
  block := ⟨1, rfl, rfl, rfl⟩
  mine := rfl
  range := hrange

/-- A thousand coins, and a contribution of a thousand coins a block later. -/
theorem getAvailableAmount_agrees_thousand : let v := ledgerView [largeContribution 1 2]
    ((holderWallet v).getAvailableAmount (holderTx (1000 * COIN)) 0 straightMap).1.toOption =
      (holderCoins (1000 * COIN)).getAvailableAmount v 0 := by
  intro v
  exact ((holder_confirmed v (by decide)).getAvailableAmount_agrees (by decide +kernel)).1

/-- A contribution of all but one satoshi of the supply. To the wallet a coin of 100000 is worth
that, to consensus it is worth less than nothing. -/
theorem coin_worth_less_than_nothing : let v := ledgerView [⟨1, 2, 12 * (78894 * COIN) - 1⟩]
    ConfirmedCoin (holderWallet v) v straightMap (holderTx 100000) (holderCoins 100000) 0 ⟨100000, []⟩ ∧
      ((holderWallet v).getAvailableAmount (holderTx 100000) 0 straightMap).1.toOption = some 100000 ∧
      (holderCoins 100000).getAvailableAmount v 0 = some (-8979464073709551616) := by
  intro v
  have hrange : moneyRange 100000 = true := by decide
  have hconfirmed := holder_confirmed v hrange
  have htotal :
    (holderCoins 100000).getAvailableAmount v 0 = some (-8979464073709551616) := by decide +kernel
  refine ⟨hconfirmed, ?_, htotal⟩
  rw [hconfirmed.getAvailableAmount_eq_max, htotal]
  rfl

end Chratos
