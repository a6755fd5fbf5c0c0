import Chratos.Properties.CoinValues
import Chratos.Properties.CoinsAndChange

/-!
# Chratos — the fee loop ends, and the fee it reports

Both need amounts that the 64 bits can hold (`InRange`). At the upper end the loop does not end: the
value to select wraps below zero, nothing has to be spent, and the little change there is lifts the
fee over the edge (`createTransaction_runs_on`).
-/

namespace Chratos

open Outcome Subset List SpendEnv

variable {s : FeeLoop} {created : CreatedTx} {nFeeRet : Int} {fuel : Nat}

/-! ## A round -/

section Round

variable {env : SpendEnv} {req : CreateRequest} {round : Nat}
  {r : CreatedTx ⊕ FeeLoop} {coins : List COutPoint} {txNew tx : CTransaction}

/-- The parts of a round that did not fail. -/
theorem feeRound_eq_ok (h : env.feeRound req round s = .ok r) : ∃ vout selected changed txNew,
      payees env.minRelayTxFee s.nFeeRet req.nSubtractFeeFromAmount true req.vecSend = .ok vout ∧
      selectCoins env.mapWallet (env.chance round) env.bSpendZeroConfChange req.vAvailableCoins
        (req.valueToSelect s.nFeeRet) req.coinControl = some selected ∧
      env.addChange round req.vecSend req.nSubtractFeeFromAmount req.nChangePosRequest req.coinControl
        s.nFeeRet (int64 (selected.2 - req.valueToSelect s.nFeeRet)) vout = .ok changed ∧
      env.signInputs (env.unsignedTx s.nTime (env.setOrder selected.1) changed.vout)
        (env.setOrder selected.1) = .ok txNew ∧
      env.settle req.coinControl (env.setOrder selected.1) txNew changed = .ok r := by
  obtain ⟨vout, hvout, h⟩ := bind_eq_ok.mp h
  split at h
  · cases h
  · next selected hselected =>
    obtain ⟨u, _, h⟩ := bind_eq_ok.mp h
    obtain ⟨changed, hchanged, h⟩ := bind_eq_ok.mp h
    obtain ⟨txNew, htxNew, h⟩ := bind_eq_ok.mp h
    exact ⟨vout, selected, changed, txNew, hvout, hselected, hchanged, htxNew, h⟩

theorem settle_cases {coinControl : Option CCoinControl} {changed : Changed}
    (h : env.settle coinControl coins txNew changed = .ok r) :
    r = .inl ⟨env.returned txNew, changed.nFeeRet, changed.nChangePosInOut⟩ ∨
      ∃ nBytes, changed.nFeeRet < env.feeNeeded coinControl nBytes ∧
        r = .inr ⟨(env.returned txNew).nTime, env.feeNeeded coinControl nBytes⟩ := by
  unfold settle at h
  simp only [] at h
  split at h
  · cases h
  · split at h
    · cases h
      exact .inl rfl
    · split at h
      · cases h
      · split at h
        · cases h
          exact .inl rfl
        · next hlow =>
          cases h
          exact .inr ⟨_, not_le.mp hlow, rfl⟩

/-- The amounts of a call that the 64 bits can hold: funds, and every value the loop may have to
select. -/
structure InRange (env : SpendEnv) (req : CreateRequest) : Prop where
  funds : Funds env.mapWallet req.coinControl req.vAvailableCoins
  valueNonneg : 0 ≤ req.nValue
  feeNonneg : ∀ nBytes, 0 ≤ env.feeNeeded req.coinControl nBytes
  fits : ∀ nBytes, req.nValue + env.feeNeeded req.coinControl nBytes + MIN_CHANGE < 2 ^ 63

/-- The fees a round can start with. -/
def StartFee (env : SpendEnv) (req : CreateRequest) (nFeeRet : Int) : Prop :=
  nFeeRet = 0 ∨ ∃ nBytes, nFeeRet = env.feeNeeded req.coinControl nBytes

namespace InRange

variable (hrange : InRange env req)
include hrange

theorem startFee (h : StartFee env req nFeeRet) :
    0 ≤ nFeeRet ∧ req.nValue + nFeeRet + MIN_CHANGE < 2 ^ 63 := by
  have hfits := hrange.fits 0
  have hnonneg := hrange.feeNonneg 0
  cases h with
  | inl hzero =>
    subst hzero
    exact ⟨le_rfl, by omega⟩
  | inr hneeded =>
    obtain ⟨nBytes, rfl⟩ := hneeded
    exact ⟨hrange.feeNonneg nBytes, hrange.fits nBytes⟩

/-- What a round has to select does not wrap. -/
theorem valueToSelect (h : StartFee env req nFeeRet) :
    req.valueToSelect nFeeRet =
      req.nValue + (if req.nSubtractFeeFromAmount = 0 then nFeeRet else 0) := by
  obtain ⟨hnonneg, hfits⟩ := hrange.startFee h
  have hvalue := hrange.valueNonneg
  rw [min_change_eq] at hfits
  unfold CreateRequest.valueToSelect
  split
  · exact int64_eq_self (by omega) (by omega)
  · omega

/-- **The selection of a round**, and the change it leaves. -/
theorem selected (h : StartFee env req s.nFeeRet) {selected : List COutPoint × Int}
    (hselected : selectCoins env.mapWallet
      (env.chance round) env.bSpendZeroConfChange req.vAvailableCoins
      (req.valueToSelect s.nFeeRet) req.coinControl = some selected) :
    (∃ chosen,
      SelectedFor env.mapWallet req.coinControl req.vAvailableCoins (req.valueToSelect s.nFeeRet)
        selected chosen) ∧
      int64 (selected.2 - req.valueToSelect s.nFeeRet) = selected.2 - req.valueToSelect s.nFeeRet ∧
      0 ≤ selected.2 - req.valueToSelect s.nFeeRet := by
  obtain ⟨hnonneg, hfits⟩ := hrange.startFee h
  have hvalue := hrange.valueNonneg
  have hselect := hrange.valueToSelect h
  have hselectNonneg : 0 ≤ req.valueToSelect s.nFeeRet := by
    rw [hselect]
    split <;> omega
  have hselectFits : req.valueToSelect s.nFeeRet + MIN_CHANGE < 2 ^ 63 := by
    rw [hselect]
    split <;> omega
  obtain ⟨chosen, hchosen⟩ := selectCoins_eq_some hrange.funds hselectNonneg hselectFits hselected
  have hle := hchosen.target_le
  have hlt := hchosen.fits
  exact ⟨⟨chosen, hchosen⟩, int64_eq_self (by omega) (by omega), by omega⟩

/-- **A round that goes on** goes on with a larger fee, one that some size needs. -/
theorem feeRound_next (h : StartFee env req s.nFeeRet) {s' : FeeLoop}
    (hround : env.feeRound req round s = .ok (.inr s')) :
    s.nFeeRet < s'.nFeeRet ∧ StartFee env req s'.nFeeRet := by
  obtain ⟨vout, selected, changed, txNew, _, hselected, hchanged, _, hsettle⟩ := feeRound_eq_ok hround
  obtain ⟨hnonneg, _⟩ := hrange.startFee h
  obtain ⟨⟨chosen, hchosen⟩, hexact, hchange⟩ := hrange.selected h hselected
  have hselect := hrange.valueToSelect h
  have hvalue := hrange.valueNonneg
  have hlt := hchosen.fits
  have hle : s.nFeeRet ≤ changed.nFeeRet := by
    apply addChange_fee_le _ hnonneg hchanged
    intro hsub
    omega
  cases settle_cases hsettle with
  | inl hdone => cases hdone
  | inr hmore =>
    obtain ⟨nBytes, hneeded, hs'⟩ := hmore
    cases hs'
    exact ⟨lt_of_le_of_lt hle hneeded, .inr ⟨nBytes, rfl⟩⟩

/-- **The loop ends.** The fee grows with each round and stays below 2^63. -/
theorem feeLoop_ends (h : StartFee env req s.nFeeRet) :
    ∃ fuel result, ∀ more, env.feeLoop req (fuel + more) round s = some result := by
  -- The induction is on how far the fee is from 2^63.
  generalize hgap : (2 ^ 63 - s.nFeeRet).toNat = gap
  induction gap using Nat.strong_induction_on generalizing s round with
  | _ gap ih =>
    obtain ⟨hnonneg, hfits⟩ := hrange.startFee h
    have hvalue := hrange.valueNonneg
    rw [min_change_eq] at hfits
    cases hround : env.feeRound req round s with
    | error halt =>
      refine ⟨1, .error halt, ?_⟩
      intro more
      rw [add_comm, feeLoop, hround]
    | ok r =>
      cases r with
      | inl created =>
        refine ⟨1, .ok created, ?_⟩
        intro more
        rw [add_comm, feeLoop, hround]
      | inr s' =>
        obtain ⟨hgrows, hstart⟩ := hrange.feeRound_next h hround
        obtain ⟨fuel, result, hend⟩ := ih (2 ^ 63 - s'.nFeeRet).toNat (by omega) hstart rfl
        refine ⟨fuel + 1, result, ?_⟩
        intro more
        rw [add_right_comm, feeLoop, hround]
        exact hend more

end InRange

/-! ## The transaction a round ends with -/

theorem length_of_mapM {α β : Type} {f : α → Option β} {l : List α} {l' : List β}
    (h : l.mapM f = some l') : l'.length = l.length := by
  induction l generalizing l' with
  | nil =>
    obtain rfl : [] = l' := Option.some.inj h
    rfl
  | cons a l ih =>
    rw [mapM_cons] at h
    obtain ⟨b, _, h⟩ := Option.bind_eq_some_iff.mp h
    obtain ⟨bs, hbs, h⟩ := Option.bind_eq_some_iff.mp h
    obtain rfl : b :: bs = l' := Option.some.inj h
    simp [ih hbs]

/-- Signing leaves what is spent alone. -/
theorem withSignatures_prevouts {sigdata : List (CScript × List (List UInt8))}
    (hlen : sigdata.length = tx.vin.length) :
    (withSignatures tx sigdata).vin.map CTxIn.prevout = tx.vin.map CTxIn.prevout := by
  refine ext_getElem (by simp [withSignatures, hlen]) fun i _ _ => ?_
  simp [withSignatures]

theorem signInputs_eq_ok (hlen : coins.length = tx.vin.length)
    (h : env.signInputs tx coins = .ok txNew) : (env.returned txNew).vout = tx.vout ∧
      (env.returned txNew).vin.map CTxIn.prevout = tx.vin.map CTxIn.prevout := by
  unfold signInputs at h
  split at h
  · cases h
  · next sigdata hsig =>
    cases h
    have hsigLen : sigdata.length = tx.vin.length := by
      rw [length_of_mapM hsig, length_zipIdx, hlen]
    have hprevouts := withSignatures_prevouts hsigLen
    unfold returned
    split
    · exact ⟨rfl, hprevouts⟩
    · refine ⟨rfl, ?_⟩
      rw [withSignatures_prevouts length_replicate, hprevouts]

/-- What the inputs are worth by some valuation. -/
def worthIn (value : COutPoint → Int) (tx : CTransaction) : Int :=
    ((tx.vin.map CTxIn.prevout).map value).sum

/-- What a valuation sees in the preset inputs beyond the amounts written in them: their dividends. -/
def presetDividends (env : SpendEnv) (value : COutPoint → Int) (coinControl : Option CCoinControl) :
    Int :=
  ((preset coinControl).map value).sum - nominalSum env.mapWallet (preset coinControl)

/-- **The fee of a round.** Inputs and outputs differ by the fee reported and by the dividends of
the preset inputs. -/
theorem InRange.feeRound_done (hrange : InRange env req)
    (hdusts : DustNonneg env.minRelayTxFee req.vecSend)
    (hsub : req.nSubtractFeeFromAmount = payers req.vecSend)
    (hsum : req.nValue = amountSum req.vecSend)
    (hamounts : ∀ recipient ∈ req.vecSend, 0 ≤ recipient.nAmount) {value : COutPoint → Int}
    (hvalue : ∀ coin ∈ req.vAvailableCoins, value coin.outpoint = coin.nAvailable)
    (h : StartFee env req s.nFeeRet) (hround : env.feeRound req round s = .ok (.inl created)) :
    worthIn value created.tx - outSum created.tx.vout =
      created.nFeeRet + presetDividends env value req.coinControl := by
  obtain ⟨vout, selected, changed, txNew, hvout, hselected, hchanged, htxNew, hsettle⟩ :=
    feeRound_eq_ok hround
  obtain ⟨hnonneg, hfits⟩ := hrange.startFee h
  obtain ⟨⟨chosen, hchosen⟩, hexact, hchange⟩ := hrange.selected h hselected
  have hselect := hrange.valueToSelect h
  have hvalueNonneg := hrange.valueNonneg
  have hlt := hchosen.fits
  rw [min_change_eq] at hfits
  rw [hexact] at hchanged
  -- The outputs for the recipients.
  have hsendable : ∀ recipient ∈ req.vecSend, Sendable recipient.nAmount := by
    intro recipient hmem
    have hle : recipient.nAmount ≤ amountSum req.vecSend := le_sum_of_mem hmem hamounts
    exact ⟨hamounts recipient hmem, by omega⟩
  obtain ⟨hvoutSum, hlen, hall⟩ := payees_eq_ok ⟨hnonneg, by omega⟩ hsendable (by omega) hvout
  -- The change, and what it leaves to the fee.
  have hchangedSum := addChange_eq_ok
    (fun hzero => by rw [if_pos hzero] at hselect; omega) hnonneg hchange hlen hsub
    (fun o ho => hdusts.sendable (hall o ho)) hchanged
  have hpaid : outSum vout = req.nValue - if req.nSubtractFeeFromAmount = 0 then 0 else s.nFeeRet := by
    rw [hvoutSum, ← hsum, ← hsub]
    by_cases hzero : req.nSubtractFeeFromAmount = 0
    · simp [hzero]
    · have hpos : 0 < req.nSubtractFeeFromAmount := by omega
      have hdiv := Int.mul_ediv_add_emod s.nFeeRet req.nSubtractFeeFromAmount
      simp only [hpos, hzero, if_true, if_false, and_true]
      omega
  -- The inputs are the selected coins, in the order of the set.
  have hinputs := signInputs_eq_ok (by simp [unsignedTx]) htxNew
  have hworth : worthIn value (env.returned txNew) =
      coinSum chosen + ((preset req.coinControl).map value).sum := by
    have hcoins : (chosen.map fun coin => value coin.outpoint).sum = coinSum chosen := by
      apply congrArg List.sum
      apply map_congr_left
      intro coin hcoin
      exact hvalue coin (hchosen.subperm.subset hcoin)
    have hperm := ((env.setOrder_perm selected.1).map value).sum_eq
    have hprevouts :
      (env.unsignedTx s.nTime (env.setOrder selected.1) changed.vout).vin.map CTxIn.prevout =
        env.setOrder selected.1 := by
      show ((env.setOrder selected.1).map unsignedInput).map CTxIn.prevout = _
      rw [map_map]
      exact map_id _
    unfold worthIn
    rw [hinputs.2, hprevouts, hperm, hchosen.outpoints_eq, map_append, sum_append, map_map]
    exact congrArg (· + _) hcoins
  have hselectedValue := hchosen.value_eq
  cases settle_cases hsettle with
  | inl hdone =>
    cases hdone
    show worthIn value (env.returned txNew) - outSum (env.returned txNew).vout = changed.nFeeRet + _
    rw [hworth, hinputs.1, presetDividends]
    show coinSum chosen + _ - outSum changed.vout = _
    omega
  | inr hmore =>
    obtain ⟨_, _, hmore⟩ := hmore
    cases hmore

/-- The loop ends with the transaction of one of its rounds. -/
theorem InRange.feeLoop_done (hrange : InRange env req)
    (h : StartFee env req s.nFeeRet) (hloop : env.feeLoop req fuel round s = some (.ok created)) :
    ∃ round s, StartFee env req s.nFeeRet ∧ env.feeRound req round s = .ok (.inl created) := by
  induction fuel generalizing round s with
  | zero => cases hloop
  | succ fuel ih =>
    unfold feeLoop at hloop
    split at hloop
    · cases hloop
    · next hround =>
      cases hloop
      exact ⟨round, s, h, hround⟩
    · next s' hround => exact ih (hrange.feeRound_next h hround).2 hloop

end Round

/-! ## What a coin is worth

The wallet lists a coin at what `GetAvailableAmount` returns for it. That is what consensus sees in it
if it is confirmed and fits 63 bits with all its payouts.
-/

/-- The worth of an unspent output to consensus. -/
def coinWorth (v : DividendView) (view : CCoinsView) (outpoint : COutPoint) : Int :=
  ((view.coins outpoint.hash).getAvailableAmount v outpoint.n.toNat).getD 0

def COutput.Counted {ι : Type} [LinearOrder ι] (w : CWallet ι) (s : BlockMap ι) (v : DividendView)
    (view : CCoinsView) (coin : COutput) : Prop :=
  let held := view.coins coin.outpoint.hash
  ∃ wtx txout, ConfirmedCoin w v s wtx held coin.outpoint.n.toNat txout ∧
    v.exactTotal txout.nValue held.nHeight < 2 ^ 63 ∧
    (w.getAvailableAmount wtx coin.outpoint.n.toNat s).1 = .ok coin.nAvailable

theorem COutput.Counted.worth {ι : Type} [LinearOrder ι] {w : CWallet ι} {s : BlockMap ι}
    {v : DividendView} {view : CCoinsView} {coin : COutput} (h : coin.Counted w s v view) :
    coinWorth v view coin.outpoint = coin.nAvailable := by
  obtain ⟨wtx, txout, hcoin, hfits, hamount⟩ := h
  have hsame := hcoin.wallet_eq_consensus hfits
  rw [hamount] at hsame
  rw [coinWorth, ← hsame]
  rfl

/-! ## The call -/

section Call

variable {env : SpendEnv} {vecSend : List CRecipient} {nChangePosRequest : Int}
  {coinControl : Option CCoinControl} {coins : List COutput} {nTime : UInt32}

theorem amountSum_append_singleton (vecSend : List CRecipient) (recipient : CRecipient) :
    amountSum (vecSend ++ [recipient]) = amountSum vecSend + recipient.nAmount := by
  simp [amountSum]

/-- The total and the number of payers, if the total is one the code can hold. -/
theorem sumRecipients_eq_ok {r : Int × Nat} (hfits : amountSum vecSend < 2 ^ 63)
    (h : sumRecipients vecSend = .ok r) :
    r.1 = amountSum vecSend ∧ r.2 = payers vecSend ∧ ∀ recipient ∈ vecSend, 0 ≤ recipient.nAmount := by
  have hrun := foldlM_ok_rec (fun done r => (∀ recipient ∈ done, 0 ≤ recipient.nAmount) ∧
      (amountSum done < 2 ^ 63 → r.1 = amountSum done ∧ r.2 = payers done)) ?_ ?_ h
  · exact ⟨(hrun.2 hfits).1, (hrun.2 hfits).2, hrun.1⟩
  · intro done recipient s t hP hstep
    obtain ⟨hnonneg, hsum⟩ := hP
    split at hstep
    · cases hstep
    · next hpos =>
      cases hstep
      refine ⟨forall_mem_append.mpr
        ⟨hnonneg, forall_mem_singleton.mpr (not_lt.mp fun h => hpos (.inr h))⟩, ?_⟩
      intro hlt
      rw [amountSum_append_singleton] at hlt ⊢
      obtain ⟨hs1, hs2⟩ := hsum (by omega)
      refine ⟨?_, ?_⟩
      · show int64 (s.1 + recipient.nAmount) = _
        rw [hs1]
        exact int64_eq_self (by omega) hlt
      · show (if recipient.fSubtractFeeFromAmount then s.2 + 1 else s.2) = _
        rw [hs2]
        cases hpays : recipient.fSubtractFeeFromAmount with
        | true => simp [payers, countP_append, hpays]
        | false => simp [payers, countP_append, hpays]
  · refine ⟨?_, fun _ => ⟨rfl, rfl⟩⟩
    intro recipient hrecipient
    cases hrecipient

variable (hfunds : Funds env.mapWallet coinControl coins)
  (hfee : ∀ nBytes, 0 ≤ env.feeNeeded coinControl nBytes)
  (hfits : ∀ nBytes, amountSum vecSend + env.feeNeeded coinControl nBytes + MIN_CHANGE < 2 ^ 63)

include hfunds hfee hfits

/-- A call that gets to its loop. -/
theorem inRange_of_sumRecipients {r : Int × Nat} (hsum : sumRecipients vecSend = .ok r)
    (hvalue : ¬ r.1 < 0) :
    InRange env { vecSend, nChangePosRequest, coinControl, nValue := r.1
                  nSubtractFeeFromAmount := r.2, vAvailableCoins := coins } ∧
      r.1 = amountSum vecSend ∧ r.2 = payers vecSend ∧
      ∀ recipient ∈ vecSend, 0 ≤ recipient.nAmount := by
  have hfee0 := hfee 0
  have hfits0 := hfits 0
  rw [min_change_eq] at hfits0
  have hrun := sumRecipients_eq_ok (by omega) hsum
  exact ⟨⟨hfunds, not_lt.mp hvalue, hfee, fun nBytes => hrun.1 ▸ hfits nBytes⟩, hrun⟩

/-- **Making a transaction ends**, whatever the randomness, if the 64 bits can hold the amounts. -/
theorem createTransaction_ends : ∃ fuel result, ∀ more,
      env.createTransaction (fuel + more) vecSend nChangePosRequest coinControl coins nTime =
        some result := by
  unfold createTransaction
  cases hsum : sumRecipients vecSend with
  | error halt => exact ⟨0, .error halt, fun _ => rfl⟩
  | ok r =>
    simp only []
    split
    · exact ⟨0, _, fun _ => rfl⟩
    · next hpos =>
      exact (inRange_of_sumRecipients hfunds hfee hfits hsum fun h => hpos (.inr h)).1.feeLoop_ends
        (.inl rfl)

variable {v : DividendView} {view : CCoinsView} (hdusts : DustNonneg env.minRelayTxFee vecSend)
  (h : env.createTransaction fuel vecSend nChangePosRequest coinControl coins nTime =
    some (.ok created))

include hdusts h

/-- What is paid beside the outputs, if the wallet sees its available coins as consensus does. -/
theorem createTransaction_paid
    (hvalue : ∀ coin ∈ coins, coinWorth v view coin.outpoint = coin.nAvailable) :
    worthIn (coinWorth v view) created.tx - outSum created.tx.vout =
      created.nFeeRet + presetDividends env (coinWorth v view) coinControl := by
  unfold createTransaction at h
  cases hsum : sumRecipients vecSend with
  | error halt =>
    rw [hsum] at h
    cases h
  | ok r =>
    rw [hsum] at h
    simp only [] at h
    split at h
    · cases h
    · next hpos =>
      obtain ⟨hrange, hr1, hr2, hnonneg⟩ := @inRange_of_sumRecipients env vecSend nChangePosRequest
        coinControl coins hfunds hfee hfits r hsum fun h => hpos (.inr h)
      obtain ⟨round, s, hstart, hround⟩ := hrange.feeLoop_done (.inl rfl) h
      exact hrange.feeRound_done hdusts hr2 hr1 hnonneg hvalue hstart hround

/-- **The fee that is reported**, if the wallet sees its available coins as consensus does. It is
the fee that is paid exactly if the preset inputs carry no dividends. -/
theorem createTransaction_fee_iff
    (hvalue : ∀ coin ∈ coins, coinWorth v view coin.outpoint = coin.nAvailable) :
    worthIn (coinWorth v view) created.tx - outSum created.tx.vout = created.nFeeRet ↔
      presetDividends env (coinWorth v view) coinControl = 0 := by
  rw [createTransaction_paid hfunds hfee hfits hdusts h hvalue]
  omega

/-- The same for confirmed coins listed at what `GetAvailableAmount` returns for them. -/
theorem createTransaction_paid_counted {ι : Type} [LinearOrder ι] {w : CWallet ι} {s : BlockMap ι}
    (hcounted : ∀ coin ∈ coins, coin.Counted w s v view) :
    worthIn (coinWorth v view) created.tx - outSum created.tx.vout =
      created.nFeeRet + presetDividends env (coinWorth v view) coinControl :=
  createTransaction_paid hfunds hfee hfits hdusts h fun coin hcoin => (hcounted coin hcoin).worth

end Call

/-! ## A wallet with one coin -/

/-- The script of a plain address. -/
def plainScript : CScript := [0x76, 0xa9, 0x14] ++ List.replicate 20 7 ++ [0x88, 0xac]

/-- A node with a relay fee of 1000 satoshis per 1000 bytes and a policy that asks for the same fee
at every size. The wallet has one transaction, with one output of a thousand coins; signing takes a
byte per input. -/
def plainEnv (fee : Int) : SpendEnv where
  nVersion := 2
  nLockTime := 0
  mapWallet := fun hash => if hash = 1 then some [⟨1000 * COIN, plainScript⟩] else none
  nTime := fun _ => 0
  depth := fun _ => 6
  bSpendZeroConfChange := false
  minRelayTxFee := ⟨1000⟩
  getMinimumFee := fun _ => fee
  isFree := fun _ _ _ => false
  produceSignature := fun _ _ _ => some ([1], [])
  sign := true
  reserveKey := fun _ => some plainScript
  getRandInt := fun _ _ => 0
  getRandInt_lt := fun _ _ h => h
  chance := fun _ _ => plainChance
  setOrder := fun coins => coins
  setOrder_perm := List.Perm.refl

/-- The coin of that wallet, preset as an input; other inputs are allowed. -/
def presetControl : CCoinControl := { fAllowOtherInputs := true, setSelected := [⟨1, 0⟩] }

theorem plainEnv_feeNeeded {fee : Int} (hfee : 10000 < fee) (nBytes : Nat) :
    (plainEnv fee).feeNeeded none nBytes = fee := if_pos hfee

/-- Five coins to an address. -/
def fiveCoins : List CRecipient := [⟨plainScript, 5 * COIN, false⟩]

theorem createTransaction_ends_five_coins : ∃ fuel result, ∀ more,
    (plainEnv 20000).createTransaction (fuel + more) fiveCoins (-1) none [plainCoin 0 (1000 * COIN)] 0 =
      some result := by
  have hneeded : ∀ nBytes, (plainEnv 20000).feeNeeded none nBytes = 20000 :=
    plainEnv_feeNeeded (by decide)
  apply createTransaction_ends
  · exact ⟨by decide, by decide, by decide⟩
  · intro nBytes
    rw [hneeded]
    decide
  · intro nBytes
    rw [hneeded]
    decide

/-- A round's state, if there is to be another one. -/
def nextRound : CreateM (CreatedTx ⊕ FeeLoop) → Option FeeLoop
  | .ok (.inr s) => some s
  | _ => none

theorem eq_of_nextRound {r : CreateM (CreatedTx ⊕ FeeLoop)} (h : nextRound r = some s) :
    r = .ok (.inr s) := by
  cases r with
  | error halt => cases h
  | ok r =>
    cases r with
    | inl created => cases h
    | inr s' => rw [Option.some.inj h]

/-- All that can be sent, with all that can be asked for as the fee. -/
def hugeRequest : CreateRequest where
  vecSend := [⟨plainScript, 2 ^ 63 - 1, false⟩]
  nValue := 2 ^ 63 - 1
  nSubtractFeeFromAmount := 0
  nChangePosRequest := -1
  coinControl := none
  vAvailableCoins := [plainCoin 0 5]

/-- **The loop that does not end.** The first round takes the coin of 5 for the whole value. From
then on the value to select wraps to -2, no coin is taken for it, the change of 2 is dust, and with
it the fee wraps below zero. -/
theorem createTransaction_runs_on : ¬ ∃ fuel,
    ((plainEnv (2 ^ 63 - 1)).createTransaction fuel hugeRequest.vecSend (-1) none
      [plainCoin 0 5] 0).isSome = true := by
  have hfirst : (plainEnv (2 ^ 63 - 1)).feeRound hugeRequest 0 ⟨0, 0⟩ = .ok (.inr ⟨0, 2 ^ 63 - 1⟩) :=
    eq_of_nextRound (by decide +kernel)
  have hagain : ∀ round, (plainEnv (2 ^ 63 - 1)).feeRound hugeRequest round ⟨0, 2 ^ 63 - 1⟩ =
      .ok (.inr ⟨0, 2 ^ 63 - 1⟩) := by
    intro round
    have hsame : (plainEnv (2 ^ 63 - 1)).feeRound hugeRequest round ⟨0, 2 ^ 63 - 1⟩ =
        (plainEnv (2 ^ 63 - 1)).feeRound hugeRequest 0 ⟨0, 2 ^ 63 - 1⟩ := rfl
    rw [hsame]
    exact eq_of_nextRound (by decide +kernel)
  -- The same round over and over.
  have hloop : ∀ fuel round,
      (plainEnv (2 ^ 63 - 1)).feeLoop hugeRequest fuel round ⟨0, 2 ^ 63 - 1⟩ = none := by
    intro fuel
    induction fuel with
    | zero => exact fun _ => rfl
    | succ fuel ih =>
      intro round
      rw [feeLoop, hagain]
      exact ih (round + 1)
  rintro ⟨fuel, hsome⟩
  have hcall :
    (plainEnv (2 ^ 63 - 1)).createTransaction fuel hugeRequest.vecSend (-1) none [plainCoin 0 5] 0 =
      (plainEnv (2 ^ 63 - 1)).feeLoop hugeRequest fuel 0 ⟨0, 0⟩ := rfl
  rw [hcall] at hsome
  cases fuel with
  | zero => cases hsome
  | succ fuel =>
    have hnone : (plainEnv (2 ^ 63 - 1)).feeLoop hugeRequest (fuel + 1) 0 ⟨0, 0⟩ = none := by
      rw [feeLoop, hfirst]
      exact hloop fuel 1
    rw [hnone] at hsome
    cases hsome

/-! ### A preset coin with a dividend -/

/-- The ledger of `getAvailableAmount_agrees_thousand`, and the coin of the wallet in the coins
database. -/
def oneContribution : DividendView := ledgerView [largeContribution 1 2]

def oneCoinView : CCoinsView where
  coins := fun hash => if hash = 1 then { vout := [⟨1000 * COIN, plainScript⟩], nHeight := 1 } else {}
  hashBlock := 0

/-- Whether a transaction was made, with the given fee reported and the given fee paid. -/
def feesAre (reported paid : Int) : Option (CreateM CreatedTx) → Bool
  | some (.ok created) =>
    created.nFeeRet = reported &&
      worthIn (coinWorth oneContribution oneCoinView) created.tx - outSum created.tx.vout = paid
  | _ => false

theorem exists_of_feesAre {reported paid : Int} {r : Option (CreateM CreatedTx)}
    (h : feesAre reported paid r = true) :
    ∃ created, r = some (.ok created) ∧ created.nFeeRet = reported ∧
      worthIn (coinWorth oneContribution oneCoinView) created.tx - outSum created.tx.vout = paid := by
  cases r with
  | none => cases h
  | some r =>
    cases r with
    | error halt => cases h
    | ok created =>
      obtain ⟨hreported, hpaid⟩ := Bool.and_eq_true_iff.mp h
      exact ⟨created, rfl, of_decide_eq_true hreported, of_decide_eq_true hpaid⟩

/-- The coin is selected by the wallet. -/
theorem createTransaction_fee_selected : ∃ created,
    (plainEnv 20000).createTransaction 2 fiveCoins (-1) none [plainCoin 0 100105738647] 0 =
        some (.ok created) ∧
      worthIn (coinWorth oneContribution oneCoinView) created.tx - outSum created.tx.vout =
        created.nFeeRet := by
  have hneeded : ∀ nBytes, (plainEnv 20000).feeNeeded none nBytes = 20000 :=
    plainEnv_feeNeeded (by decide)
  have hfees : feesAre 20000 20000
      ((plainEnv 20000).createTransaction 2 fiveCoins (-1) none [plainCoin 0 100105738647] 0) =
        true := by
    decide +kernel
  obtain ⟨created, hcreated, _, _⟩ := exists_of_feesAre hfees
  refine ⟨created, hcreated, ?_⟩
  refine (createTransaction_fee_iff ⟨by decide, by decide, by decide⟩ ?_ ?_ ?_ hcreated ?_).mpr rfl
  · intro nBytes
    rw [hneeded]
    decide
  · intro nBytes
    rw [hneeded]
    decide
  · intro recipient hrecipient
    rw [mem_singleton.mp hrecipient]
    decide +kernel
  · intro coin hcoin
    rw [mem_singleton.mp hcoin]
    decide +kernel

/-- The coin is preset: the fee is reported as 20000, but 105758647 is paid, the dividend included. -/
theorem createTransaction_fee_preset : ∃ created,
    (plainEnv 20000).createTransaction 2 fiveCoins (-1) (some presetControl) [] 0 = some (.ok created) ∧
      created.nFeeRet = 20000 ∧
      worthIn (coinWorth oneContribution oneCoinView) created.tx - outSum created.tx.vout = 105758647 :=
  exists_of_feesAre (by decide +kernel)

end Chratos
