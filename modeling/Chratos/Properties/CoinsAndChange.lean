import Chratos.Properties.CoinSelection
import Chratos.Wallet.CreateTransaction
import Mathlib.Tactic.Ring

/-!
# Chratos — the parts of a new transaction

What the steps of `CreateTransaction` leave, for amounts that the 64 bits can hold.
-/

namespace Chratos

open Outcome Subset List CTxOut Option

/-! ## What is selected

What is selected: some of the available coins and the inputs the user preset, and what they count
(`selectCoins_eq_some`).
-/

section Select

variable {mapWallet : Uint256 → Option (List CTxOut)} {coinControl : Option CCoinControl}
  {coins : List COutput}

/-- The inputs that are spent whatever else is. -/
def preset (coinControl : Option CCoinControl) : List COutPoint :=
  if onlySelected coinControl then [] else coinControl.elim [] CCoinControl.setSelected

/-- What a wallet output counts as a preset input: the amount written in it. -/
def nominal (mapWallet : Uint256 → Option (List CTxOut)) (outpoint : COutPoint) : Int :=
  ((walletOutput mapWallet outpoint).map nValue).getD 0

def nominalSum (mapWallet : Uint256 → Option (List CTxOut)) (outpoints : List COutPoint) : Int :=
  (outpoints.map (nominal mapWallet)).sum

/-- The preset inputs are those the user selected; they count what is written in them. -/
theorem presetInputs_eq_some {selected : List COutPoint} {r : List COutPoint × Int}
    (h : presetInputs mapWallet selected = some r) :
    r = (selected, int64 (nominalSum mapWallet selected)) := by
  -- The running sum is a 64-bit number from the start.
  have key : ∀ (rest : List COutPoint) (s : List COutPoint × Int), int64 s.2 = s.2 →
      rest.foldlM (fun s outpoint => (walletOutput mapWallet outpoint).map fun o =>
        (s.1 ++ [outpoint], int64 (s.2 + o.nValue))) s = some r →
      r = (s.1 ++ rest, int64 (s.2 + nominalSum mapWallet rest)) := by
    intro rest
    induction rest with
    | nil =>
      intro s hs h
      obtain rfl : s = r := some.inj h
      simp [nominalSum, hs]
    | cons outpoint rest ih =>
      intro s hs h
      obtain ⟨t, ht, hrest⟩ := bind_eq_some_iff.mp h
      obtain ⟨o, ho, rfl⟩ := map_eq_some_iff.mp ht
      have hnominal : nominal mapWallet outpoint = o.nValue := by simp [nominal, ho]
      rw [ih (s.1 ++ [outpoint], int64 (s.2 + o.nValue)) (int64_int64 _) hrest]
      simp [nominalSum, hnominal, add_assoc]
  simpa using key selected ([], 0) rfl h

/-- The funds of a wallet, in amounts that the 64 bits can hold. -/
structure Funds (mapWallet : Uint256 → Option (List CTxOut)) (coinControl : Option CCoinControl)
    (coins : List COutput) : Prop where
  nonneg : ∀ coin ∈ coins, 0 ≤ coin.nAvailable
  presetNonneg : ∀ outpoint ∈ preset coinControl, 0 ≤ nominal mapWallet outpoint
  fits : coinSum coins + nominalSum mapWallet (preset coinControl) + MIN_CHANGE < 2 ^ 63

namespace Funds

variable (h : Funds mapWallet coinControl coins)
include h

theorem nominalSum_nonneg : 0 ≤ nominalSum mapWallet (preset coinControl) :=
  sum_nonneg_of_mem h.presetNonneg

theorem holdable : Holdable coins where
  nonneg := h.nonneg
  fits := by
    have hfits := h.fits
    have hpreset := h.nominalSum_nonneg
    omega

end Funds

/-- A selection: coins that are available, beside the preset inputs, and what all of them count. -/
structure SelectedFor (mapWallet : Uint256 → Option (List CTxOut)) (coinControl : Option CCoinControl)
    (coins : List COutput) (nTargetValue : Int) (selected : List COutPoint × Int)
      (chosen : List COutput) :
    Prop where
  subperm : chosen.Subperm coins
  outpoints_eq : selected.1 = chosen.map COutput.outpoint ++ preset coinControl
  value_eq : selected.2 = coinSum chosen + nominalSum mapWallet (preset coinControl)
  target_le : nTargetValue ≤ selected.2
  fits : selected.2 < 2 ^ 63

variable {chance : Nat → Chance} {bSpendZeroConfChange : Bool} {nTargetValue : Int}

/-- Whichever of the attempts succeeds, it is a selection from the coins. -/
theorem selectCoinsRelaxed_eq_some {selected : List COutput × Int} (hhold : Holdable coins)
    (htarget : 0 < nTargetValue) (hfits : nTargetValue + MIN_CHANGE < 2 ^ 63)
    (h : selectCoinsRelaxed chance bSpendZeroConfChange nTargetValue coins = some selected) :
    Selected nTargetValue coins selected := by
  -- Each attempt goes by its own confirmations; all are about the same coins.
  have hone : ∀ {chance : Chance} {nConfMine nConfTheirs : Int},
      selectCoinsMinConf chance nTargetValue nConfMine nConfTheirs coins = some selected →
      Selected nTargetValue coins selected := by
    intro chance nConfMine nConfTheirs hsel
    have hs :=
      (selectCoinsMinConf_spec chance nConfMine nConfTheirs hhold htarget hfits).2 selected hsel
    exact ⟨hs.subperm.trans filter_sublist.subperm, hs.value_eq, hs.target_le⟩
  cases or_eq_some_iff.mp h with
  | inl h0 => exact hone h0
  | inr h =>
    cases or_eq_some_iff.mp h.2 with
    | inl h1 => exact hone h1
    | inr h =>
      have h2 := h.2
      split at h2
      · exact hone h2
      · cases h2

theorem selectCoins_eq_some {selected : List COutPoint × Int}
    (hfunds : Funds mapWallet coinControl coins) (htarget : 0 ≤ nTargetValue)
    (hfits : nTargetValue + MIN_CHANGE < 2 ^ 63)
    (h : selectCoins mapWallet chance bSpendZeroConfChange coins nTargetValue coinControl =
      some selected) :
    ∃ chosen, SelectedFor mapWallet coinControl coins nTargetValue selected chosen := by
  have hfundsFit := hfunds.fits
  have hpresetNonneg := hfunds.nominalSum_nonneg
  have hcoinsNonneg := hfunds.holdable.sum_nonneg
  rw [min_change_eq] at hfits hfundsFit
  unfold selectCoins at h
  cases honly : onlySelected coinControl with
  | true =>
    -- All spendable coins are taken.
    have hpreset : preset coinControl = [] := by simp [preset, honly]
    have hsub : (coins.filter COutput.fSpendable).Sublist coins := filter_sublist
    have hle := hfunds.holdable.coinSum_le hsub.subperm
    simp only [honly, if_true, (hfunds.holdable.sublist hsub).int64_coinSum] at h
    split at h
    · next hreach =>
      obtain rfl := some.inj h
      refine ⟨coins.filter COutput.fSpendable, hsub.subperm, ?_, ?_, hreach, ?_⟩
      · rw [hpreset, append_nil]
      · rw [hpreset]
        simp [nominalSum]
      · show coinSum _ < _
        omega
    · cases h
  | false =>
    have hpreset : preset coinControl = coinControl.elim [] CCoinControl.setSelected := by
      simp [preset, honly]
    simp only [honly, Bool.false_eq_true, if_false, ← hpreset] at h
    obtain ⟨r, hr, h⟩ := bind_eq_some_iff.mp h
    have hr := presetInputs_eq_some hr
    rw [int64_eq_self (by omega) (by omega)] at hr
    subst hr
    split at h
    · -- The preset inputs do.
      next hreach =>
      obtain rfl := some.inj h
      refine ⟨[], nil_subperm, by simp, ?_, hreach, ?_⟩
      · simp [coinSum]
      · show nominalSum _ _ < _
        omega
    · next hlow =>
      obtain ⟨r, hr, rfl⟩ := map_eq_some_iff.mp h
      have hsub :
        (coins.filter fun coin => !(preset coinControl).contains coin.outpoint).Sublist coins :=
        filter_sublist
      rw [int64_eq_self (by omega) (by omega)] at hr
      have hs := selectCoinsRelaxed_eq_some (hfunds.holdable.sublist hsub) (by omega)
        (by rw [min_change_eq]; omega) hr
      have hsubperm : r.1.Subperm coins := hs.subperm.trans hsub.subperm
      have hle := hfunds.holdable.coinSum_le hsubperm
      have hvalue := hs.value_eq
      have hreach := hs.target_le
      have hexact : int64 (r.2 + nominalSum mapWallet (preset coinControl)) =
          r.2 + nominalSum mapWallet (preset coinControl) := int64_eq_self (by omega) (by omega)
      refine ⟨r.1, hsubperm, rfl, ?_, ?_, ?_⟩
      · show int64 _ = _
        rw [hexact, hvalue]
      · show nTargetValue ≤ int64 _
        rw [hexact]
        omega
      · show int64 _ < _
        rw [hexact]
        omega

end Select

/-! ## The change -/

section Change

variable {env : SpendEnv} {round : Nat} {vecSend : List CRecipient} {nSubtractFeeFromAmount : Nat}
  {nChangePosRequest nFeeRet nChange : Int} {coinControl : Option CCoinControl} {vout : List CTxOut}
  {changed : Changed}

/-- The sum of some outputs. -/
def outSum (vout : List CTxOut) : Int := (vout.map nValue).sum

/-- A dust threshold is a 64-bit number. -/
theorem CTxOut.int64_getDustThreshold (minRelayTxFee : CFeeRate) (o : CTxOut) :
    int64 (o.getDustThreshold minRelayTxFee) = o.getDustThreshold minRelayTxFee := by
  unfold getDustThreshold
  split
  · rfl
  · exact int64_int64 _

variable {newTxOut : CTxOut} {raised : List CTxOut × CTxOut} {minRelayTxFee : CFeeRate}

/-- Raised change is worth the threshold. -/
theorem raiseChange_not_isDust (hsub : nSubtractFeeFromAmount > 0)
    (h : env.raiseChange vecSend nSubtractFeeFromAmount vout newTxOut = .ok raised) :
    raised.2.isDust env.minRelayTxFee = false := by
  unfold SpendEnv.raiseChange at h
  split at h
  · simp only [] at h
    obtain ⟨vout', -, rfl⟩ := map_eq_ok.mp h
    have hvalue : int64 (newTxOut.nValue +
        int64 (newTxOut.getDustThreshold env.minRelayTxFee - newTxOut.nValue)) =
        newTxOut.getDustThreshold env.minRelayTxFee := by
      rw [int64_add_int64, add_sub_cancel, int64_getDustThreshold]
    unfold isDust
    rw [decide_eq_false_iff_not, not_lt, getDustThreshold_nValue env.minRelayTxFee newTxOut]
    exact hvalue.ge
  · next hno =>
    cases h
    simpa [hsub] using hno

/-- Dust goes to the fee only if the recipients do not pay it. -/
theorem eq_zero_of_isDust
    (h : env.raiseChange vecSend nSubtractFeeFromAmount vout newTxOut = .ok raised)
    (hdust : raised.2.isDust env.minRelayTxFee = true) : nSubtractFeeFromAmount = 0 := by
  by_contra hne
  rw [raiseChange_not_isDust (by omega) h] at hdust
  cases hdust

/-- The place of the change: dust goes to the fee, else the change is one of the outputs. -/
theorem placeChange_cases
    (h : env.placeChange round nChangePosRequest nFeeRet nChange vout newTxOut = .ok changed) :
    (newTxOut.isDust env.minRelayTxFee = true ∧ changed = ⟨vout, -1, int64 (nFeeRet + nChange)⟩) ∨
      (newTxOut.isDust env.minRelayTxFee = false ∧ outSum changed.vout = outSum vout + newTxOut.nValue ∧
        changed.nFeeRet = nFeeRet) := by
  have hinsert : ∀ position, outSum (vout.take position ++ newTxOut :: vout.drop position) =
      outSum vout + newTxOut.nValue := by
    intro position
    have hsplit := sum_take_add_sum_drop (vout.map nValue) position
    unfold outSum
    rw [← hsplit, map_append, sum_append, map_cons, sum_cons, map_take, map_drop]
    omega
  unfold SpendEnv.placeChange at h
  cases hdust : newTxOut.isDust env.minRelayTxFee with
  | true =>
    simp only [hdust, if_true] at h
    cases h
    exact .inl ⟨rfl, rfl⟩
  | false =>
    simp only [hdust, Bool.false_eq_true, if_false] at h
    split at h
    · cases h
      exact .inr ⟨rfl, hinsert _, rfl⟩
    · split at h
      · cases h
      · cases h
        exact .inr ⟨rfl, hinsert _, rfl⟩

/-- The change never lowers the fee. -/
theorem addChange_fee_le (hfits : nSubtractFeeFromAmount = 0 → nFeeRet + nChange < 2 ^ 63)
    (hfee : 0 ≤ nFeeRet)
    (h : env.addChange round vecSend nSubtractFeeFromAmount nChangePosRequest coinControl
      nFeeRet nChange
      vout = .ok changed) : nFeeRet ≤ changed.nFeeRet := by
  unfold SpendEnv.addChange at h
  split at h
  · next hpos =>
    obtain ⟨script, _, h⟩ := bind_eq_ok.mp h
    obtain ⟨raised, hraised, h⟩ := bind_eq_ok.mp h
    cases placeChange_cases h with
    | inl hdust =>
      obtain ⟨hisDust, rfl⟩ := hdust
      have hlt := hfits (eq_zero_of_isDust hraised hisDust)
      show nFeeRet ≤ int64 (nFeeRet + nChange)
      rw [int64_eq_self (by omega) hlt]
      omega
    | inr hplaced => exact le_of_eq hplaced.2.2.symm
  · cases h
    exact le_rfl

/-! ### What the outputs add up to -/

/-- The recipients who pay the fee. -/
def payers (vecSend : List CRecipient) : Nat := vecSend.countP CRecipient.fSubtractFeeFromAmount

def amountSum (vecSend : List CRecipient) : Int := (vecSend.map CRecipient.nAmount).sum

/-- An amount the code can hold, and that may be sent. -/
def Sendable (nAmount : Int) : Prop := 0 ≤ nAmount ∧ nAmount < 2 ^ 63

/-- A recipient pays his share, the first the remainder as well. -/
theorem payFee_eq {nAmount : Int} (fFirst : Bool) (hamount : Sendable nAmount) (hfee : Sendable nFeeRet)
    (hsub : 0 < nSubtractFeeFromAmount) : payFee nFeeRet nSubtractFeeFromAmount fFirst nAmount =
      nAmount - nFeeRet / nSubtractFeeFromAmount - if fFirst then nFeeRet %
        nSubtractFeeFromAmount else 0 := by
  obtain ⟨hlow, hhigh⟩ := hamount
  obtain ⟨hfeeLow, hfeeHigh⟩ := hfee
  have hsub' : (0 : Int) < nSubtractFeeFromAmount := by omega
  have hdiv := Int.mul_ediv_add_emod nFeeRet nSubtractFeeFromAmount
  have hdivNonneg : 0 ≤ nFeeRet / (nSubtractFeeFromAmount : Int) := Int.ediv_nonneg hfeeLow hsub'.le
  have hmodNonneg : 0 ≤ nFeeRet % (nSubtractFeeFromAmount : Int) := Int.emod_nonneg _ hsub'.ne'
  -- A share and the remainder are together no more than the fee.
  have hshare :
    nFeeRet / (nSubtractFeeFromAmount : Int) + nFeeRet % nSubtractFeeFromAmount ≤ nFeeRet := by
    have hone : nFeeRet / (nSubtractFeeFromAmount : Int) ≤
        nSubtractFeeFromAmount * (nFeeRet / nSubtractFeeFromAmount) := by nlinarith
    omega
  unfold payFee
  rw [Int.tdiv_eq_ediv_of_nonneg hfeeLow, Int.tmod_eq_emod_of_nonneg hfeeLow,
    int64_eq_self (by omega) (by omega)]
  cases fFirst with
  | false => simp
  | true =>
    exact int64_eq_self (by omega) (by omega)

/-- An output for a recipient, as `CreateTransaction` allows it. -/
def Payable (minRelayTxFee : CFeeRate) (vecSend : List CRecipient) (o : CTxOut) : Prop :=
  o.isDust minRelayTxFee = false ∧ o.nValue < 2 ^ 63 ∧
    ∃ recipient ∈ vecSend, o.scriptPubKey = recipient.scriptPubKey

/-- **The outputs for the recipients** are worth their amounts but for the fee they pay. -/
theorem payees_eq_ok {fFirst : Bool} (hfee : Sendable nFeeRet)
    (hamounts : ∀ recipient ∈ vecSend, Sendable recipient.nAmount)
    (hsub : 0 < payers vecSend → 0 < nSubtractFeeFromAmount)
    (h : payees minRelayTxFee nFeeRet nSubtractFeeFromAmount fFirst vecSend = .ok vout) :
    outSum vout = amountSum vecSend - payers vecSend * (nFeeRet / nSubtractFeeFromAmount) -
        (if fFirst ∧ 0 < payers vecSend then nFeeRet % nSubtractFeeFromAmount else 0) ∧
      vout.length = vecSend.length ∧ ∀ o ∈ vout, Payable minRelayTxFee vecSend o := by
  induction vecSend generalizing fFirst vout with
  | nil =>
    cases h
    simp [outSum, amountSum, payers]
  | cons recipient vecSend ih =>
    have hhead := hamounts recipient mem_cons_self
    have htail : ∀ r ∈ vecSend, Sendable r.nAmount := fun r hr => hamounts r (mem_cons_of_mem _ hr)
    have hlater : ∀ {rest : List CTxOut}, (∀ o ∈ rest, Payable minRelayTxFee vecSend o) →
        ∀ o ∈ rest, Payable minRelayTxFee (recipient :: vecSend) o := by
      intro rest hrest o ho
      obtain ⟨hnodust, hlt, r, hr, hscript⟩ := hrest o ho
      exact ⟨hnodust, hlt, r, mem_cons_of_mem _ hr, hscript⟩
    unfold payees at h
    cases hdust : (payee nFeeRet nSubtractFeeFromAmount fFirst recipient).1.isDust minRelayTxFee with
    | true => simp [hdust] at h
    | false =>
      simp only [hdust, Bool.false_eq_true, if_false] at h
      obtain ⟨rest, hrest, rfl⟩ := map_eq_ok.mp h
      cases hpays : recipient.fSubtractFeeFromAmount with
      | false =>
        -- The amount as it is, and the first payer is still to come.
        have hpayers : payers (recipient :: vecSend) = payers vecSend := by simp [payers, hpays]
        have hpayee : payee nFeeRet nSubtractFeeFromAmount fFirst recipient =
            (⟨recipient.nAmount, recipient.scriptPubKey⟩, fFirst) := by simp [payee, hpays]
        rw [hpayee] at hdust hrest ⊢
        rw [hpayers] at hsub ⊢
        obtain ⟨hsum, hlen, hall⟩ := ih htail hsub hrest
        refine ⟨?_, by simp [hlen], ?_⟩
        · simp only [outSum, amountSum, map_cons, sum_cons] at hsum ⊢
          omega
        · exact forall_mem_cons.mpr ⟨⟨hdust, hhead.2, recipient, mem_cons_self, rfl⟩, hlater hall⟩
      | true =>
        have hpayers : payers (recipient :: vecSend) = payers vecSend + 1 := by simp [payers, hpays]
        have hpos := hsub (by omega)
        have hpayee : payee nFeeRet nSubtractFeeFromAmount fFirst recipient =
            (⟨payFee nFeeRet nSubtractFeeFromAmount fFirst recipient.nAmount, recipient.scriptPubKey⟩,
              false) := by simp [payee, hpays]
        have hvalue := payFee_eq fFirst hhead hfee hpos
        have hdivNonneg : 0 ≤ nFeeRet / (nSubtractFeeFromAmount : Int) :=
          Int.ediv_nonneg hfee.1 (by omega)
        have hmodNonneg : 0 ≤ nFeeRet % (nSubtractFeeFromAmount : Int) := Int.emod_nonneg _ (by omega)
        rw [hpayee] at hdust hrest ⊢
        obtain ⟨hsum, hlen, hall⟩ := ih htail (fun _ => hpos) hrest
        refine ⟨?_, by simp [hlen], ?_⟩
        · rw [hpayers]
          simp only [outSum, amountSum, map_cons, sum_cons, hvalue, Bool.false_eq_true,
            false_and, if_false, Nat.succ_pos, and_true] at hsum ⊢
          push_cast
          rw [hsum]
          ring
        · refine forall_mem_cons.mpr ⟨⟨hdust, ?_, recipient, mem_cons_self, rfl⟩, hlater hall⟩
          have hhigh := hhead.2
          show payFee _ _ _ _ < _
          rw [hvalue]
          split <;> omega

/-- Dust is taken from one output. -/
theorem deductDust_eq_ok {nDust : Int} {vout' : List CTxOut} (hdust : Sendable nDust)
    (hlen : vout.length = vecSend.length) (hpayers : 0 < payers vecSend)
    (hvalues : ∀ o ∈ vout, Sendable o.nValue)
    (h : deductDust minRelayTxFee nDust vecSend vout = .ok vout') :
    outSum vout' = outSum vout - nDust := by
  induction vecSend generalizing vout vout' with
  | nil => simp [payers] at hpayers
  | cons recipient vecSend ih =>
    cases vout with
    | nil => simp at hlen
    | cons txout vout =>
      obtain ⟨hhead, htail⟩ := forall_mem_cons.mp hvalues
      unfold deductDust at h
      cases hpays : recipient.fSubtractFeeFromAmount with
      | true =>
        simp only [hpays, if_true] at h
        split at h
        · cases h
        · cases h
          obtain ⟨hlow, hhigh⟩ := hhead
          obtain ⟨hdustLow, hdustHigh⟩ := hdust
          simp only [outSum, map_cons, sum_cons]
          rw [int64_eq_self (by omega) (by omega)]
          omega
      | false =>
        simp only [hpays, Bool.false_eq_true, if_false] at h
        obtain ⟨rest, hrest, rfl⟩ := map_eq_ok.mp h
        have hpayers' : 0 < payers vecSend := by simpa [payers, hpays] using hpayers
        have hsum := ih (by simpa using hlen) hpayers' htail hrest
        simp only [outSum, map_cons, sum_cons] at hsum ⊢
        omega

/-- The relay fee makes the threshold of no recipient negative. -/
def DustNonneg (minRelayTxFee : CFeeRate) (vecSend : List CRecipient) : Prop :=
  ∀ recipient ∈ vecSend,
    0 ≤ (⟨recipient.nAmount, recipient.scriptPubKey⟩ : CTxOut).getDustThreshold minRelayTxFee

/-- What is not dust may be sent. -/
theorem DustNonneg.sendable (h : DustNonneg minRelayTxFee vecSend) {o : CTxOut}
    (ho : Payable minRelayTxFee vecSend o) : Sendable o.nValue := by
  obtain ⟨hdust, hlt, recipient, hmem, hscript⟩ := ho
  have hthreshold := h recipient hmem
  rw [← hscript, getDustThreshold_nValue minRelayTxFee o] at hthreshold
  unfold isDust at hdust
  rw [decide_eq_false_iff_not, not_lt] at hdust
  exact ⟨le_trans hthreshold hdust, hlt⟩

/-- Raising the change moves value from a recipient to the change. -/
theorem raiseChange_eq_ok (hchange : 0 < newTxOut.nValue) (hlen : vout.length = vecSend.length)
    (hsub : nSubtractFeeFromAmount = payers vecSend) (hvalues : ∀ o ∈ vout, Sendable o.nValue)
    (h : env.raiseChange vecSend nSubtractFeeFromAmount vout newTxOut = .ok raised) :
    (outSum raised.1 + raised.2.nValue = outSum vout + newTxOut.nValue) ∧
      (nSubtractFeeFromAmount = 0 → raised = (vout, newTxOut)) := by
  unfold SpendEnv.raiseChange at h
  split at h
  · next hraise =>
    obtain ⟨vout', hvout', rfl⟩ := map_eq_ok.mp h
    have hisDust := hraise.2
    unfold isDust at hisDust
    rw [decide_eq_true_eq] at hisDust
    have hthreshold : newTxOut.getDustThreshold env.minRelayTxFee < 2 ^ 63 := by
      rw [← int64_getDustThreshold]
      exact int64_lt _
    have hdust : int64 (newTxOut.getDustThreshold env.minRelayTxFee - newTxOut.nValue) =
        newTxOut.getDustThreshold env.minRelayTxFee - newTxOut.nValue :=
          int64_eq_self (by omega) (by omega)
    rw [hdust] at hvout' ⊢
    have hsum := deductDust_eq_ok ⟨by omega, by omega⟩ hlen (by omega) hvalues hvout'
    refine ⟨?_, fun hzero => absurd hraise.1 (by omega)⟩
    show outSum vout' + int64 (newTxOut.nValue + (_ - newTxOut.nValue)) = _
    rw [add_sub_cancel, int64_getDustThreshold, hsum]
    omega
  · cases h
    exact ⟨rfl, fun _ => rfl⟩

/-- **The change.** Outputs and fee together gain what was left over. -/
theorem addChange_eq_ok (hfits : nSubtractFeeFromAmount = 0 → nFeeRet + nChange < 2 ^ 63)
    (hfee : 0 ≤ nFeeRet) (hchange : 0 ≤ nChange)
    (hlen : vout.length = vecSend.length) (hsub : nSubtractFeeFromAmount = payers vecSend)
    (hvalues : ∀ o ∈ vout, Sendable o.nValue)
    (h : env.addChange round vecSend nSubtractFeeFromAmount nChangePosRequest coinControl
      nFeeRet nChange
      vout = .ok changed) :
    outSum changed.vout + changed.nFeeRet = outSum vout + nFeeRet + nChange := by
  unfold SpendEnv.addChange at h
  split at h
  · next hpos =>
    obtain ⟨script, _, h⟩ := bind_eq_ok.mp h
    obtain ⟨raised, hraised, h⟩ := bind_eq_ok.mp h
    obtain ⟨hsum, hsame⟩ := raiseChange_eq_ok hpos hlen hsub hvalues hraised
    cases placeChange_cases h with
    | inl hdust =>
      obtain ⟨hisDust, rfl⟩ := hdust
      have hzero := eq_zero_of_isDust hraised hisDust
      have hlt := hfits hzero
      rw [hsame hzero]
      show outSum vout + int64 (nFeeRet + nChange) = _
      rw [int64_eq_self (by omega) hlt]
      omega
    | inr hplaced =>
      obtain ⟨_, hout, hsameFee⟩ := hplaced
      have hsum' : outSum raised.1 + raised.2.nValue = outSum vout + nChange := hsum
      omega
  · cases h
    show outSum vout + nFeeRet = _
    omega

end Change

end Chratos
