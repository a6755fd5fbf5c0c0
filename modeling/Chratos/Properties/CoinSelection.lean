import Chratos.Wallet.CoinSelection

/-!
# Chratos — what coin selection finds

The target may not be so large that `nTargetValue + MIN_CHANGE` leaves the 64 bits: the sum then
wraps below zero, every coin counts as larger than the target, and the smallest one is returned for
it (`small_coin_for_huge_target`).
-/

namespace Chratos

open Outcome Subset List

variable {nTargetValue nTotalLower : Int} {coins : List COutput} {coin : COutput} {i : Nat}

/-! ## The random search -/

section Search

variable {vValue : List COutput} {s : SubsetSearch}

structure SubsetSearch.Valid (vValue : List COutput) (nTargetValue : Int)
    (s : SubsetSearch) : Prop where
  length_eq : s.vfIncluded.length = vValue.length
  total_eq : s.nTotal = chosenSum COutput.nAvailable vValue s.vfIncluded
  best_eq : s.nBest = chosenSum COutput.nAvailable vValue s.vfBest
  target_le : nTargetValue ≤ s.nBest

/-- The amounts of a list of coins that a 64-bit sum can hold. -/
structure Holdable (coins : List COutput) : Prop where
  nonneg : ∀ coin ∈ coins, 0 ≤ coin.nAvailable
  fits : coinSum coins + MIN_CHANGE < 2 ^ 63

theorem min_change_eq : MIN_CHANGE = 1000000 := rfl

namespace Holdable

variable {part : List COutput}

section

variable (h : Holdable coins)

include h

theorem sublist (hsub : part.Sublist coins) : Holdable part where
  nonneg coin hcoin := h.nonneg coin (hsub.subset hcoin)
  fits := by
    have hle : coinSum part ≤ coinSum coins := sum_le_of_sublist hsub h.nonneg
    have hfits := h.fits
    omega

theorem perm (hperm : part.Perm coins) : Holdable part where
  nonneg coin hcoin := h.nonneg coin (hperm.subset hcoin)
  fits := by
    have heq : coinSum part = coinSum coins := (hperm.map COutput.nAvailable).sum_eq
    rw [heq]
    exact h.fits

theorem sum_nonneg : 0 ≤ coinSum coins :=
  sum_nonneg_of_mem h.nonneg

/-- The 64-bit sum of the amounts is the sum. -/
theorem int64_coinSum : int64 (coinSum coins) = coinSum coins := by
  have hnonneg := h.sum_nonneg
  have hfits := h.fits
  rw [min_change_eq] at hfits
  exact int64_eq_self (by omega) (by omega)

theorem coinSum_le (hsub : part.Subperm coins) : coinSum part ≤ coinSum coins := by
  obtain ⟨same, hperm, hsame⟩ := hsub
  have hsum : coinSum same = coinSum part := (hperm.map COutput.nAvailable).sum_eq
  exact hsum ▸ sum_le_of_sublist hsame h.nonneg

theorem le_coinSum (hcoin : coin ∈ coins) :
    coin.nAvailable ≤ coinSum coins := le_sum_of_mem hcoin h.nonneg

end

end Holdable

/-- The parts the search looks at are part of the coins, so its sums do not wrap. -/
theorem Holdable.int64_chosenSum (h : Holdable vValue) (flags : List Bool) :
    int64 (chosenSum COutput.nAvailable vValue flags) = chosenSum COutput.nAvailable vValue flags :=
  (h.sublist (chosen_sublist vValue flags)).int64_coinSum

/-- One visit of a coin that is not in. -/
theorem SubsetSearch.Valid.visit (h : s.Valid vValue nTargetValue) (hhold : Holdable vValue)
    (hi : i < vValue.length) (hout : s.vfIncluded.getD i false = false) :
    (s.visit nTargetValue vValue i).Valid vValue nTargetValue := by
  have hflag : s.vfIncluded[i]? = some false := by
    have hlt : i < s.vfIncluded.length := h.length_eq ▸ hi
    rw [getD_eq_getElem?_getD, getElem?_eq_getElem hlt] at hout
    rw [getElem?_eq_getElem hlt]
    exact congrArg some hout
  have hcoin : vValue[i]? = some vValue[i] := getElem?_eq_getElem hi
  -- With the coin put in, the running total is the worth of the larger part.
  have htotal : int64 (s.nTotal + vValue[i].nAvailable) =
      chosenSum COutput.nAvailable vValue (s.vfIncluded.set i true) := by
    rw [h.total_eq, ← chosenSum_set hcoin hflag]
    exact hhold.int64_chosenSum _
  have hback : (s.vfIncluded.set i true).set i false = s.vfIncluded := by
    rw [set_set]
    apply ext_getElem?
    intro j
    rw [getElem?_set]
    split
    · next hij =>
      subst hij
      rw [hflag]
      simp [h.length_eq, hi]
    · rfl
  unfold SubsetSearch.visit
  rw [hcoin]
  simp only [htotal]
  split
  · next hreached =>
    -- The target is reached: the part may be the best so far, and the coin is taken out again.
    refine ⟨?_, ?_, ?_, ?_⟩
    · simpa using h.length_eq
    · show int64 (_ - _) = chosenSum _ _ ((s.vfIncluded.set i true).set i false)
      rw [hback, chosenSum_set hcoin hflag, add_sub_cancel_right]
      exact hhold.int64_chosenSum _
    · show (if _ then _ else _) = chosenSum _ _ (if _ then _ else _)
      split
      · rfl
      · exact h.best_eq
    · show nTargetValue ≤ if _ then _ else _
      split
      · exact hreached
      · exact h.target_le
  · exact ⟨by simpa using h.length_eq, rfl, h.best_eq, h.target_le⟩

/-- A visit touches no flag but the coin's own. -/
theorem SubsetSearch.visit_getD_of_ne {j : Nat} (hij : i ≠ j) :
    (s.visit nTargetValue vValue i).vfIncluded.getD j false = s.vfIncluded.getD j false := by
  unfold SubsetSearch.visit
  split
  · rfl
  · simp only []
    split
    · simp [getD_eq_getElem?_getD, hij]
    · simp [getD_eq_getElem?_getD, hij]

/-- **A pass.** It keeps the invariant if it only takes coins that are not in. `Ready i` is what it
can rely on before coin `i`. -/
theorem SubsetSearch.Valid.pass (include? : SubsetSearch → Nat → Bool)
    (Ready : Nat → SubsetSearch → Prop)
    (hout : ∀ i s, Ready i s → include? s i = true → s.vfIncluded.getD i false = false)
    (hvisit : ∀ i s, Ready i s → Ready (i + 1) (s.visit nTargetValue vValue i))
    (hskip : ∀ i s, Ready i s → Ready (i + 1) s)
    (hhold : Holdable vValue) (h : s.Valid vValue nTargetValue) (hready : Ready 0 s) :
    (s.pass nTargetValue vValue include?).Valid vValue nTargetValue := by
  -- The induction is on the number of coins visited.
  have key : ∀ n ≤ vValue.length, ∀ t, t = (range n).foldl (fun s i =>
      if include? s i then s.visit nTargetValue vValue i else s) s →
      t.Valid vValue nTargetValue ∧ Ready n t := by
    intro n
    induction n with
    | zero =>
      intro _ t ht
      subst ht
      exact ⟨h, hready⟩
    | succ n ih =>
      intro hn t ht
      obtain ⟨hvalid, hr⟩ := ih (by omega) _ rfl
      rw [range_succ, foldl_append, foldl_cons, foldl_nil] at ht
      subst ht
      split
      · next hin => exact ⟨hvalid.visit hhold (by omega) (hout n _ hr hin), hvisit n _ hr⟩
      · exact ⟨hvalid, hskip n _ hr⟩
  exact (key vValue.length le_rfl _ rfl).1

/-- One round of the search, whatever the random bits. -/
theorem SubsetSearch.Valid.rep (hhold : Holdable vValue)
    (hbest : s.nBest = chosenSum COutput.nAvailable vValue s.vfBest) (hle : nTargetValue ≤ s.nBest)
    (bit : Nat → Bool) : (s.rep nTargetValue vValue bit).Valid vValue nTargetValue := by
  unfold SubsetSearch.rep
  simp only []
  have hfirst : ({ s with
      vfIncluded := replicate vValue.length false, nTotal := 0, fReachedTarget := false }
        : SubsetSearch).Valid vValue nTargetValue := by
    refine ⟨length_replicate, ?_, hbest, hle⟩
    simp [chosenSum, chosen_replicate_false]
  -- In the first pass no coin at or after the current one is in.
  have hpass := hfirst.pass (fun _ i => bit i)
    (fun i s => ∀ j, i ≤ j → s.vfIncluded.getD j false = false)
    (fun i s hr _ => hr i le_rfl)
    (fun i s hr j hj => by
      rw [SubsetSearch.visit_getD_of_ne (by omega)]
      exact hr j (by omega))
    (fun i s hr j hj => hr j (by omega)) hhold
    (fun j _ => by simp [getD_eq_getElem?_getD, getElem?_replicate]; split <;> rfl)
  split
  · exact hpass
  · -- The second pass looks at the flag itself.
    exact hpass.pass _ (fun _ _ => True) (fun i s _ hin => by simpa using hin) (fun _ _ _ => trivial)
      (fun _ _ _ => trivial) hhold trivial

/-- **The search.** The amount returned is that of the part returned, and reaches the target. -/
theorem approximateBestSubset_spec (hhold : Holdable vValue)
    (hlower : nTotalLower = coinSum vValue) (hle : nTargetValue ≤ nTotalLower) (bit : Nat → Nat → Bool)
    (iterations : Nat) : (approximateBestSubset vValue nTotalLower nTargetValue bit iterations).2 =
        chosenSum COutput.nAvailable vValue
          (approximateBestSubset vValue nTotalLower nTargetValue bit iterations).1 ∧
      nTargetValue ≤ (approximateBestSubset vValue nTotalLower nTargetValue bit iterations).2 := by
  -- The loop is over the rounds; the best part survives each of them.
  refine foldlRecOn (motive := fun s : SubsetSearch =>
    s.nBest = chosenSum COutput.nAvailable vValue s.vfBest ∧ nTargetValue ≤ s.nBest) _ _ ⟨?_, hle⟩ ?_
  · show nTotalLower = chosenSum _ vValue (replicate vValue.length true)
    unfold chosenSum
    rw [chosen_replicate_true, hlower]
    rfl
  · intro s h nRep _
    by_cases hdone : s.nBest = nTargetValue
    · rw [if_pos hdone]
      exact h
    · rw [if_neg hdone]
      have hvalid := SubsetSearch.Valid.rep hhold h.1 h.2 (bit nRep)
      exact ⟨hvalid.best_eq, hvalid.target_le⟩

theorem int64_add_min_change (htarget : 0 < nTargetValue) (hfits : nTargetValue + MIN_CHANGE < 2 ^ 63) :
    int64 (nTargetValue + MIN_CHANGE) = nTargetValue + MIN_CHANGE :=
  int64_eq_self (by rw [min_change_eq] at *; omega) hfits

/-- The best part of one search or two. -/
theorem bestSubset_spec (chance : Chance) (hhold : Holdable vValue)
    (hlower : nTotalLower = coinSum vValue) (hle : nTargetValue ≤ nTotalLower)
    (htarget : 0 < nTargetValue) (hfits : nTargetValue + MIN_CHANGE < 2 ^ 63) :
    (bestSubset chance nTargetValue nTotalLower vValue).2 =
        coinSum (chosen vValue (bestSubset chance nTargetValue nTotalLower vValue).1) ∧
      nTargetValue ≤ (bestSubset chance nTargetValue nTotalLower vValue).2 := by
  unfold bestSubset
  simp only [int64_add_min_change htarget hfits]
  split
  · next hsecond =>
    obtain ⟨heq, hreach⟩ := approximateBestSubset_spec hhold hlower hsecond.2 (chance.bit 1) 1000
    exact ⟨heq, le_trans (by rw [min_change_eq]; omega) hreach⟩
  · exact approximateBestSubset_spec hhold hlower hle (chance.bit 0) 1000

end Search

/-! ## Collecting the coins -/

section Collect

variable {nConfMine nConfTheirs : Int} {c : Collected}

/-- The coins a selection may take. -/
def eligibleCoins (nConfMine nConfTheirs : Int) (coins : List COutput) : List COutput :=
  coins.filter (COutput.eligible nConfMine nConfTheirs)

/-- What the loop knows after `seen`, the eligible coins so far. -/
structure Collected.Sound (nTargetValue : Int) (seen : List COutput) (c : Collected) : Prop where
  part : c.vValue.Sublist seen
  lower_eq : c.nTotalLower = coinSum c.vValue
  larger : ∀ coin ∈ c.coinLowestLarger, coin ∈ seen ∧ nTargetValue ≤ coin.nAvailable
  all_lower : c.coinLowestLarger = none → c.vValue = seen

theorem eligibleCoins_append_singleton (coins : List COutput) (coin : COutput) :
    eligibleCoins nConfMine nConfTheirs (coins ++ [coin]) = eligibleCoins nConfMine nConfTheirs coins ++
      if coin.eligible nConfMine nConfTheirs then [coin] else [] := by
  unfold eligibleCoins
  cases h : coin.eligible nConfMine nConfTheirs with
  | true => simp [h]
  | false => simp [h]

theorem coinSum_append_singleton (coins : List COutput) (coin : COutput) :
    coinSum (coins ++ [coin]) = coinSum coins + coin.nAvailable := by
  simp [coinSum]

/-- The loop over the coins, if no coin is worth the target. -/
theorem Collected.Sound.of_foldlM (hhold : Holdable coins) (htarget : 0 < nTargetValue)
    (hfits : nTargetValue + MIN_CHANGE < 2 ^ 63)
    (h : coins.foldlM (Collected.add nTargetValue nConfMine nConfTheirs) {} = .ok c) :
    c.Sound nTargetValue (eligibleCoins nConfMine nConfTheirs coins) := by
  -- `Holdable` goes with the part consumed: the sums of a part do not wrap.
  have hrun := foldlM_ok_rec (fun done c => Holdable done →
      c.Sound nTargetValue (eligibleCoins nConfMine nConfTheirs done)) ?_ ?_ h
  · exact hrun hhold
  · intro done coin c c' hP hadd hhold'
    have hs := hP (hhold'.sublist (sublist_append_left done [coin]))
    rw [eligibleCoins_append_singleton]
    unfold Collected.add at hadd
    rw [int64_add_min_change htarget hfits] at hadd
    cases helig : coin.eligible nConfMine nConfTheirs with
    | false =>
      simp only [helig, Bool.not_false, if_true] at hadd
      cases hadd
      simpa using hs
    | true =>
      simp only [helig, Bool.not_true, Bool.false_eq_true, if_false, if_true] at hadd ⊢
      have hkeep : ∀ larger ∈ c.coinLowestLarger,
          larger ∈ eligibleCoins nConfMine nConfTheirs done ++ [coin] ∧
            nTargetValue ≤ larger.nAvailable :=
        fun larger hlarger => (hs.larger larger hlarger).imp_left (mem_append_left _)
      split at hadd
      · cases hadd
      · split at hadd
        · -- A coin not much larger than the target.
          cases hadd
          have hpart :
            (c.vValue ++ [coin]).Sublist (eligibleCoins nConfMine nConfTheirs done ++ [coin]) :=
            hs.part.append_right [coin]
          have hsub : (eligibleCoins nConfMine nConfTheirs done ++ [coin]).Sublist (done ++ [coin]) :=
            filter_sublist.append_right [coin]
          refine ⟨hpart, ?_, hkeep, ?_⟩
          · show int64 (c.nTotalLower + coin.nAvailable) = coinSum (c.vValue ++ [coin])
            rw [hs.lower_eq, ← coinSum_append_singleton]
            exact (hhold'.sublist (hpart.trans hsub)).int64_coinSum
          · intro hnone
            rw [hs.all_lower hnone]
        · next hlarge =>
          rw [min_change_eq] at hlarge
          have hmem : coin ∈ eligibleCoins nConfMine nConfTheirs done ++ [coin] :=
            mem_append_right _ (mem_singleton_self coin)
          have hpart : c.vValue.Sublist (eligibleCoins nConfMine nConfTheirs done ++ [coin]) :=
            hs.part.trans (sublist_append_left _ _)
          split at hadd
          · cases hadd
            refine ⟨hpart, hs.lower_eq, ?_, nofun⟩
            intro larger hlarger
            obtain rfl : coin = larger := Option.some.inj hlarger
            exact ⟨hmem, by omega⟩
          · -- A larger coin that is not smaller than the one kept: there is one kept.
            next hkept =>
            cases hadd
            refine ⟨hpart, hs.lower_eq, hkeep, fun hnone => absurd ?_ hkept⟩
            rw [hnone]
            have hle := hhold'.le_coinSum (mem_append_right done (mem_singleton_self coin))
            have hfits' := hhold'.fits
            rw [min_change_eq] at hfits'
            show coin.nAvailable < 2 ^ 63 - 1
            omega
  · intro _
    exact ⟨List.Sublist.refl [], rfl, nofun, fun _ => rfl⟩

variable {eligible : List COutput}

/-- The coin that ends the loop. -/
theorem Collected.add_error
    (h : coins.foldlM (Collected.add nTargetValue nConfMine nConfTheirs) c = .error coin) :
    coin ∈ eligibleCoins nConfMine nConfTheirs coins ∧ coin.nAvailable = nTargetValue := by
  induction coins generalizing c with
  | nil => cases h
  | cons output rest ih =>
    rw [foldlM_cons] at h
    cases hadd : Collected.add nTargetValue nConfMine nConfTheirs c output with
    | ok c' =>
      rw [hadd] at h
      exact (ih h).imp_left fun hmem => (sublist_cons_self output rest).filter _ |>.subset hmem
    | error coin' =>
      rw [hadd] at h
      obtain rfl : coin' = coin := Except.error.inj h
      -- Only a coin worth the target ends the loop.
      unfold Collected.add at hadd
      split at hadd
      · cases hadd
      · next helig =>
        split at hadd
        · next heq =>
          cases hadd
          refine ⟨mem_filter.mpr ⟨mem_cons_self, ?_⟩, heq⟩
          simpa using helig
        · split at hadd
          · cases hadd
          · split at hadd
            · cases hadd
            · cases hadd

/-- What a selection is to be: some eligible coins, worth the amount returned and at least the
target. -/
structure Selected (nTargetValue : Int) (eligible : List COutput) (selected : List COutput × Int) :
    Prop where
  subperm : selected.1.Subperm eligible
  value_eq : selected.2 = coinSum selected.1
  target_le : nTargetValue ≤ selected.2

theorem Selected.singleton (hmem : coin ∈ eligible) (hle : nTargetValue ≤ coin.nAvailable) :
    Selected nTargetValue eligible ([coin], coin.nAvailable) where
  subperm := singleton_subperm_iff.mpr hmem
  value_eq := by simp [coinSum]
  target_le := hle

theorem Selected.found {selected : List COutput × Int} (h : Selected nTargetValue eligible selected)
    (hhold : Holdable eligible) :
    ((some selected).isSome = true ↔ nTargetValue ≤ coinSum eligible) ∧
      ∀ other, some selected = some other → Selected nTargetValue eligible other := by
  have hle := h.value_eq ▸ hhold.coinSum_le h.subperm
  exact ⟨⟨fun _ => h.target_le.trans hle, fun _ => rfl⟩, fun other hother => Option.some.inj hother ▸ h⟩

/-- The choice among the collected coins: there is one exactly if the eligible coins are worth the
target. -/
theorem Collected.Sound.choose (chance : Chance) {seen : List COutput} (hs : c.Sound nTargetValue seen)
    (hhold : Holdable seen) (htarget : 0 < nTargetValue) (hfits : nTargetValue + MIN_CHANGE < 2 ^ 63) :
    ((c.choose chance nTargetValue).isSome = true ↔ nTargetValue ≤ coinSum seen) ∧
      ∀ selected, c.choose chance nTargetValue = some selected →
        Selected nTargetValue seen selected := by
  have hlower := hs.lower_eq
  unfold Collected.choose
  split
  · -- All that was collected.
    next heq =>
    have hsum := (hhold.sublist hs.part).int64_coinSum
    refine Selected.found ⟨hs.part.subperm, hsum, ?_⟩ hhold
    omega
  · split
    · -- The larger coin, if there is one.
      next hlt =>
      cases hlarger : c.coinLowestLarger with
      | none =>
        refine ⟨⟨nofun, fun hle => ?_⟩, nofun⟩
        have hall := hs.all_lower hlarger
        rw [← hall, ← hlower] at hle
        omega
      | some coin =>
        obtain ⟨hmem, hle⟩ := hs.larger coin hlarger
        exact (Selected.singleton hmem hle).found hhold
    · -- A part of the collected coins, or the larger one.
      next hge =>
      have hperm := chance.sort_perm c.vValue
      have hsorted : Holdable (chance.sortDescending c.vValue) := (hhold.sublist hs.part).perm hperm
      have hsortedSum : c.nTotalLower = coinSum (chance.sortDescending c.vValue) := by
        rw [hlower]
        exact (hperm.map COutput.nAvailable).sum_eq.symm
      obtain ⟨heq, hreach⟩ := bestSubset_spec chance hsorted hsortedSum (not_lt.mp hge) htarget hfits
      have hchosen := chosen_sublist (chance.sortDescending c.vValue)
        (bestSubset chance nTargetValue c.nTotalLower (chance.sortDescending c.vValue)).1
      have hbest : Selected nTargetValue seen (chosen (chance.sortDescending c.vValue)
            (bestSubset chance nTargetValue c.nTotalLower (chance.sortDescending c.vValue)).1,
          int64 (coinSum (chosen (chance.sortDescending c.vValue)
            (bestSubset chance nTargetValue c.nTotalLower (chance.sortDescending c.vValue)).1))) := by
        have hsum := (hsorted.sublist hchosen).int64_coinSum
        refine ⟨?_, hsum, ?_⟩
        · exact (hchosen.subperm.trans hperm.subperm).trans hs.part.subperm
        · show nTargetValue ≤ int64 _
          rw [hsum, ← heq]
          exact hreach
      cases hlarger : c.coinLowestLarger with
      | none => exact hbest.found hhold
      | some coin =>
        simp only []
        obtain ⟨hmem, hlarge⟩ := hs.larger coin hlarger
        split
        · exact (Selected.singleton hmem hlarge).found hhold
        · exact hbest.found hhold

/-- The selection over the coins in the order they came. -/
theorem selectCoinsMinConf_spec (chance : Chance) (nConfMine nConfTheirs : Int) (hhold : Holdable coins)
    (htarget : 0 < nTargetValue) (hfits : nTargetValue + MIN_CHANGE < 2 ^ 63) :
    ((selectCoinsMinConf chance nTargetValue nConfMine nConfTheirs coins).isSome = true ↔
        nTargetValue ≤ coinSum (eligibleCoins nConfMine nConfTheirs coins)) ∧
      ∀ selected, selectCoinsMinConf chance nTargetValue nConfMine nConfTheirs coins = some selected →
        Selected nTargetValue (eligibleCoins nConfMine nConfTheirs coins) selected := by
  have hperm := chance.shuffle_perm coins
  have helig : (eligibleCoins nConfMine nConfTheirs (chance.shuffle coins)).Perm
      (eligibleCoins nConfMine nConfTheirs coins) := hperm.filter _
  have hsum : coinSum (eligibleCoins nConfMine nConfTheirs (chance.shuffle coins)) =
      coinSum (eligibleCoins nConfMine nConfTheirs coins) := (helig.map COutput.nAvailable).sum_eq
  have hholdElig : Holdable (eligibleCoins nConfMine nConfTheirs coins) := hhold.sublist filter_sublist
  unfold selectCoinsMinConf
  cases hfold : (chance.shuffle coins).foldlM (Collected.add nTargetValue nConfMine nConfTheirs) {} with
  | error coin =>
    obtain ⟨hmem, heq⟩ := Collected.add_error hfold
    exact (Selected.singleton (helig.subset hmem) heq.ge).found hholdElig
  | ok c =>
    have hs := Collected.Sound.of_foldlM (hhold.perm hperm) htarget hfits hfold
    obtain ⟨hiff, hspec⟩ := hs.choose chance (hholdElig.perm helig) htarget hfits
    refine ⟨by rw [← hsum]; exact hiff, ?_⟩
    intro selected hsel
    have hselected := hspec selected hsel
    exact ⟨hselected.subperm.trans helig.subperm, hselected.value_eq, hselected.target_le⟩

/-- **Coin selection is sound and complete.** It finds coins exactly if the eligible ones are worth
the target; they are then eligible, no coin comes twice, and their worth is returned and reaches the
target. -/
theorem selectCoinsMinConf_sound (chance : Chance) (nConfMine nConfTheirs : Int)
    (hdistinct : (coins.map COutput.outpoint).Nodup) (hnonneg : ∀ coin ∈ coins, 0 ≤ coin.nAvailable)
    (hcoins : coinSum coins + MIN_CHANGE < 2 ^ 63) (htarget : 0 < nTargetValue)
    (hfits : nTargetValue + MIN_CHANGE < 2 ^ 63) :
    ((selectCoinsMinConf chance nTargetValue nConfMine nConfTheirs coins).isSome = true ↔
        nTargetValue ≤ coinSum (coins.filter (COutput.eligible nConfMine nConfTheirs))) ∧
      ∀ setCoinsRet nValueRet,
        selectCoinsMinConf chance nTargetValue nConfMine nConfTheirs coins =
          some (setCoinsRet, nValueRet) →
          (setCoinsRet.map COutput.outpoint).Nodup ∧
          (∀ coin ∈ setCoinsRet, coin ∈ coins ∧ coin.eligible nConfMine nConfTheirs = true) ∧
          nValueRet = coinSum setCoinsRet ∧ nTargetValue ≤ nValueRet := by
  obtain ⟨hiff, hspec⟩ := selectCoinsMinConf_spec chance nConfMine nConfTheirs ⟨hnonneg, hcoins⟩ htarget
    hfits
  refine ⟨hiff, ?_⟩
  intro setCoinsRet nValueRet hsel
  have hselected := hspec _ hsel
  refine ⟨?_, ?_, hselected.value_eq, hselected.target_le⟩
  · have hsub : setCoinsRet.Subperm coins := hselected.subperm.trans filter_sublist.subperm
    obtain ⟨part, hpart, hsublist⟩ := hsub
    exact (hpart.map COutput.outpoint).nodup_iff.mp (hdistinct.sublist (hsublist.map _))
  · intro coin hcoin
    exact mem_filter.mp (hselected.subperm.subset hcoin)

/-- Coins in the order they come, no random bit set. -/
def plainChance : Chance where
  shuffle coins := coins
  shuffle_perm := List.Perm.refl
  sortDescending coins := coins.mergeSort fun a b => b.nAvailable ≤ a.nAvailable
  sort_perm coins := mergeSort_perm coins _
  sort_pairwise coins := by
    have htrans : ∀ a b c : COutput, decide (b.nAvailable ≤ a.nAvailable) = true →
        decide (c.nAvailable ≤ b.nAvailable) = true → decide (c.nAvailable ≤ a.nAvailable) = true := by
      simp only [decide_eq_true_eq]
      intro a b c hba hcb
      exact le_trans hcb hba
    have htotal : ∀ a b : COutput,
        (decide (b.nAvailable ≤ a.nAvailable) || decide (a.nAvailable ≤ b.nAvailable)) = true := by
      intro a b
      simp only [Bool.or_eq_true, decide_eq_true_eq]
      exact le_total _ _
    exact (pairwise_mergeSort htrans htotal coins).imp of_decide_eq_true
  bit _ _ _ := false

def plainCoin (n : UInt32) (nAvailable : Int) : COutput :=
  { outpoint := ⟨1, n⟩, nDepth := 6, fSpendable := true, fFromMe := false, nAvailable := nAvailable }

/-- Three coins of 5, 7 and 9 for a target of 11: the search finds no part worth 11 exactly. -/
theorem selectCoinsMinConf_three_coins :
    (selectCoinsMinConf plainChance 11 1 6 [plainCoin 0 5, plainCoin 1 7, plainCoin 2 9]).isSome =
      true :=
  (selectCoinsMinConf_sound plainChance 1 6 (by decide) (by decide) (by decide) (by decide)
    (by decide)).1.mpr (by decide)

/-- One coin of 5 for a target of 2^63 - 1: it is returned. -/
theorem small_coin_for_huge_target : coinSum [plainCoin 0 5] + MIN_CHANGE < 2 ^ 63 ∧
      selectCoinsMinConf plainChance (2 ^ 63 - 1) 1 6 [plainCoin 0 5] = some ([plainCoin 0 5], 5) ∧
      coinSum ([plainCoin 0 5].filter (COutput.eligible 1 6)) < 2 ^ 63 - 1 := by
  decide +kernel

end Collect
end Chratos
