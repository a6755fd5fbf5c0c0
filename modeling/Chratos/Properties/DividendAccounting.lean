import Chratos.Dividend.Dividend
import Mathlib.Algebra.BigOperators.Group.Finset.Sigma
import Mathlib.Data.Finset.Max

/-!
# Chratos — what becomes of every contribution

Every contribution that has matured should be paid out with exactly one dividend, or wait in the
fund. Four functions decide about that by four different criteria, and they do not always agree.
`counted_once_iff` says when they do:

* a paid contribution takes the waiting ones along only if these exceed the threshold without it,
  and then several paid ones in one block take each other along (`Accountable.leftovers`,
  `Accountable.together`);
* a contribution leaves the fund as soon as a later one is large enough, and
  `ExceedsThresholdWithPriors` finds that of immature ones too (`Accountable.pending`).

When every contribution is counted once, the sums agree: `funds_add_up`.
-/

namespace Chratos

open List

namespace DividendView

variable {e x d : CDividendTx} (v : DividendView)

/-- A ledger as a chain leaves it: no id twice, everything in both containers, and every
contribution in a block above genesis. -/
structure OneChain : Prop where
  nodup : (v.mapLedger.map CDividendTx.hash).Nodup
  ordered : v.dtxOrdered.Perm v.mapLedger
  height_pos : ∀ x ∈ v.mapLedger, 0 < x.height

/-- In the fund, or paid out with exactly one dividend, but not both. -/
def CountedOnce (x : CDividendTx) : Prop :=
  (x ∈ v.fundTxsAt v.tipHeight ∧
    ∀ d ∈ v.mapLedger, v.doesExceedThreshold d = true → x ∉ v.getExceedChainFor d) ∨
  (x ∉ v.fundTxsAt v.tipHeight ∧
    ∃! d, d ∈ v.mapLedger ∧ v.doesExceedThreshold d = true ∧ x ∈ v.getExceedChainFor d)

/-- Not later than `d` and with no payout from there to below `d`. -/
def SinceLastPaid (d x : CDividendTx) : Prop :=
  x ≠ d ∧ x.height ≤ d.height ∧ ∀ p ∈ v.mapLedger, v.exceedsThresholdSolo p = true →
    p.height < d.height → p.height < x.height

instance (d x : CDividendTx) : Decidable (v.SinceLastPaid d x) := by
  unfold SinceLastPaid
  infer_instance

/-- The credits since the last payout, without the contribution itself. -/
def creditSinceLastPaid (d : CDividendTx) : Int :=
  ((v.mapLedger.filter fun x => v.SinceLastPaid d x).map (·.credit)).sum

/-- When all contributions are counted once.

* `leftovers`: a paid contribution with smaller ones since the last payout is the only paid one in
  its block, and those before it exceed the threshold without it;
* `together`: of several paid ones in a block, none has contributions since the last payout that
  exceed the threshold without it;
* `pending`: as long as a contribution waits in the fund, there is no immature one behind it,
  first of the immature ones, whose credit reaches the threshold when it is taken once more for
  each contribution since the last payout. -/
structure Accountable : Prop where
  leftovers : ∀ d ∈ v.mapLedger, v.exceedsThresholdSolo d = true → ∀ x ∈ v.mapLedger,
    v.SinceLastPaid d x → v.exceedsThresholdSolo x = false →
      (∀ e ∈ v.mapLedger, v.exceedsThresholdSolo e = true → e.height = d.height → e = d) ∧
        v.threshold.gt (v.creditSinceLastPaid d) (v.getCoinSupply d) = true
  together : ∀ d ∈ v.mapLedger, ∀ e ∈ v.mapLedger, v.exceedsThresholdSolo d = true →
    v.exceedsThresholdSolo e = true → e ≠ d → e.height = d.height →
      v.threshold.gt (v.creditSinceLastPaid d) (v.getCoinSupply d) = false
  pending : ∀ x ∈ v.mapLedger, v.isMature x = true →
    (∀ d ∈ v.mapLedger, v.exceedsThresholdSolo d = true → d.height < x.height) →
      ∀ y ∈ v.mapLedger, x.height ≤ y.height → y.height < v.tipHeight → v.isMature y = false →
        (∀ p ∈ v.mapLedger, p.height < y.height → v.isMature p = true) →
          v.threshold.ge (y.credit * (1 + (v.unpaidBefore y).length)) (v.getCoinSupply y) = false

variable {v}

/-! ## Membership -/

theorem OneChain.eq_of_hash (h : v.OneChain) {y : CDividendTx} (hx : x ∈ v.mapLedger)
    (hy : y ∈ v.mapLedger) (heq : x.hash = y.hash) : x = y :=
  inj_on_of_nodup_map h.nodup hx hy heq

theorem OneChain.mem_getOrdered (h : v.OneChain) : x ∈ v.getOrdered ↔ x ∈ v.mapLedger := by
  rw [getOrdered, (v.std.perm _).mem_iff, h.ordered.mem_iff]

/-- The priors of `GetExceedChainFor`. -/
theorem OneChain.getPayoutsBefore_filter (h : v.OneChain) (hd : d ∈ v.mapLedger) :
    (v.getPayoutsBefore d (v.getPaidBlockBefore d)).Perm
      (v.mapLedger.filter fun x => v.SinceLastPaid d x) := by
  refine (v.std.perm _).trans (List.Perm.of_eq (filter_congr fun x hx => ?_))
  rw [Bool.eq_iff_iff]
  simp only [Bool.and_eq_true, decide_eq_true_eq, bne_iff_ne, and_assoc]
  rw [getPaidBlockBefore_lt_iff h.height_pos hx]
  constructor
  · rintro ⟨hle, hlast, hne⟩
    refine ⟨fun heq => hne (by rw [heq]), hle, fun p hp hsolo hbelow => hlast p hp hsolo hbelow ?_⟩
    intro hhash
    rw [h.eq_of_hash hd hp hhash] at hbelow
    exact lt_irrefl _ hbelow
  · rintro ⟨hne, hle, hlast⟩
    refine ⟨hle, fun p hp hsolo hbelow _ => hlast p hp hsolo hbelow, fun hhash => ?_⟩
    exact hne (h.eq_of_hash hx hd hhash.symm)

/-- **What is paid out with a contribution.** -/
theorem OneChain.mem_getExceedChainFor (h : v.OneChain) (hd : d ∈ v.mapLedger) :
    x ∈ v.getExceedChainFor d ↔ v.exceedsThresholdSolo d = true ∧ (x = d ∨
      (x ∈ v.mapLedger ∧ v.SinceLastPaid d x ∧
        v.threshold.gt (v.creditSinceLastPaid d) (v.getCoinSupply d) = true)) := by
  have hperm := h.getPayoutsBefore_filter hd
  have hsum : ((v.getPayoutsBefore d (v.getPaidBlockBefore d)).map (·.credit)).sum =
      v.creditSinceLastPaid d := (hperm.map _).sum_eq
  rw [getExceedChainFor, doesExceedThreshold_eq]
  cases hsolo : v.exceedsThresholdSolo d with
  | false => simp
  | true =>
    simp only [if_true, hsum, mem_append, mem_singleton, true_and]
    cases hgt : v.threshold.gt (v.creditSinceLastPaid d) (v.getCoinSupply d) with
    | false => simp
    | true =>
      simp only [if_true, and_true]
      rw [hperm.mem_iff, mem_filter, decide_eq_true_eq, or_comm]

theorem exceedsThresholdWithSubsequents_iff {blockHeight : Int} :
    v.exceedsThresholdWithSubsequents x blockHeight = true ↔ ∃ y ∈ v.mapLedger,
      x.height ≤ y.height ∧ y.height < blockHeight ∧ x.hash ≠ y.hash ∧
        (v.exceedsThresholdSolo y = true ∨ v.exceedsThresholdWithPriors y = true) := by
  rw [exceedsThresholdWithSubsequents, any_eq_true]
  simp only [mem_getPayoutsAfter, Bool.or_eq_true]
  constructor
  · rintro ⟨y, ⟨hy, hle, hlt, hne⟩, hexceeds⟩
    exact ⟨y, hy, hle, hlt, hne, hexceeds⟩
  · rintro ⟨y, hy, hle, hlt, hne, hexceeds⟩
    exact ⟨y, ⟨hy, hle, hlt, hne⟩, hexceeds⟩

/-- **What waits in the fund.** -/
theorem OneChain.mem_fundTxsAt (h : v.OneChain) :
    x ∈ v.fundTxsAt v.tipHeight ↔ x ∈ v.mapLedger ∧ v.isMature x = true ∧
      v.exceedsThresholdSolo x = false ∧
      v.exceedsThresholdWithSubsequents x v.tipHeight = false := by
  rw [fundTxsAt, mem_filter, mem_filter, h.mem_getOrdered, decide_eq_true_eq]
  by_cases hx : x ∈ v.mapLedger
  · have hpos := h.height_pos x hx
    have hmature : x.getMatureHeight ≤ v.tipHeight ↔ v.isMature x = true := by
      rw [CDividendTx.getMatureHeight, if_pos hpos, isMature, decide_eq_true_eq]
    rw [hmature, exceedsThresholdAt]
    cases hm : v.isMature x with
    | false => simp
    | true =>
      rw [isImmature_eq_false.mpr hm, exceedsThresholdWithPriors_of_mature hm]
      simp [hx]
  · simp [hx]

/-! ## Counting -/

theorem height_lt_of_isMature (h : v.isMature d = true) : d.height < v.tipHeight := by
  rw [isMature, decide_eq_true_eq, DIVIDEND_MIN_AGE] at h
  omega

theorem SinceLastPaid.of_height_eq (hne : x ≠ d) (heq : x.height = d.height) : v.SinceLastPaid d x :=
  ⟨hne, heq.le, fun _ _ _ hbelow => by rw [heq]; exact hbelow⟩

/-- What two paid contributions both take along puts them in one block. -/
theorem SinceLastPaid.height_eq (hd : d ∈ v.mapLedger) (he : e ∈ v.mapLedger)
    (hsd : v.exceedsThresholdSolo d = true) (hse : v.exceedsThresholdSolo e = true)
    (hxd : v.SinceLastPaid d x) (hxe : v.SinceLastPaid e x) : e.height = d.height := by
  rcases lt_trichotomy e.height d.height with hlt | heq | hgt
  · exact absurd (hxd.2.2 e he hse hlt) (not_lt.mpr hxe.2.1)
  · exact heq
  · exact absurd (hxe.2.2 d hd hsd hgt) (not_lt.mpr hxd.2.1)

/-- A later payout takes a contribution out of the fund. -/
theorem OneChain.notMem_fundTxsAt (h : v.OneChain) (hd : d ∈ v.mapLedger)
    (hsolo : v.exceedsThresholdSolo d = true) (hle : x.height ≤ d.height) :
    x ∉ v.fundTxsAt v.tipHeight := by
  rw [h.mem_fundTxsAt]
  rintro ⟨hx, -, hunpaid, hlater⟩
  rw [Bool.eq_false_iff] at hlater
  refine hlater (exceedsThresholdWithSubsequents_iff.mpr ⟨d, hd, hle,
    height_lt_of_isMature (isMature_of_exceedsThresholdSolo hsolo), fun hhash => ?_, .inl hsolo⟩)
  rw [h.eq_of_hash hx hd hhash, hsolo] at hunpaid
  cases hunpaid

theorem CountedOnce.eq (hx : v.CountedOnce x) (hd : d ∈ v.mapLedger)
    (hsd : v.exceedsThresholdSolo d = true) (hxd : x ∈ v.getExceedChainFor d) (he : e ∈ v.mapLedger)
    (hse : v.exceedsThresholdSolo e = true) (hxe : x ∈ v.getExceedChainFor e) : e = d := by
  rw [← doesExceedThreshold_eq] at hsd hse
  rcases hx with ⟨-, hnone⟩ | ⟨-, hone⟩
  · exact absurd hxd (hnone d hd hsd)
  · exact hone.unique ⟨he, hse, hxe⟩ ⟨hd, hsd, hxd⟩

namespace OneChain

variable (h : v.OneChain)

include h

theorem self_mem_getExceedChainFor (hd : d ∈ v.mapLedger)
    (hsolo : v.exceedsThresholdSolo d = true) : d ∈ v.getExceedChainFor d :=
  (h.mem_getExceedChainFor hd).mpr ⟨hsolo, .inl rfl⟩

/-- Two paid contributions in one block would take each other along. -/
theorem together_of_counted (hd : d ∈ v.mapLedger) (he : e ∈ v.mapLedger)
    (hsd : v.exceedsThresholdSolo d = true) (hse : v.exceedsThresholdSolo e = true)
    (hcount : v.CountedOnce e) (hheight : e.height = d.height)
    (hgt : v.threshold.gt (v.creditSinceLastPaid d) (v.getCoinSupply d) = true) : e = d := by
  by_contra hne
  have hmem : e ∈ v.getExceedChainFor d := (h.mem_getExceedChainFor hd).mpr
    ⟨hsd, .inr ⟨he, .of_height_eq hne hheight, hgt⟩⟩
  exact hne (hcount.eq hd hsd hmem he hse (h.self_mem_getExceedChainFor he hse))

/-- Counted once, hence accountable. -/
theorem accountable
    (hcount : ∀ x ∈ v.mapLedger, v.isMature x = true → v.CountedOnce x) : v.Accountable := by
  have hpaid : ∀ d ∈ v.mapLedger, v.exceedsThresholdSolo d = true → v.CountedOnce d :=
    fun d hd hsolo => hcount d hd (isMature_of_exceedsThresholdSolo hsolo)
  refine ⟨fun d hd hsd x hx hsince hunpaid => ?_, fun d hd e he hsd hse hne hheight => ?_,
    fun x hx hmature hnone y hy hle hlt himmature hfirst => ?_⟩
  · -- A small one is out of the fund, so some payout takes it along: this one.
    have hxmature := isMature_of_le hsince.2.1 (isMature_of_exceedsThresholdSolo hsd)
    have hgt : v.threshold.gt (v.creditSinceLastPaid d) (v.getCoinSupply d) = true := by
      rcases hcount x hx hxmature with ⟨hfund, -⟩ | ⟨-, e, ⟨he, hse, hxe⟩, -⟩
      · exact absurd hfund (h.notMem_fundTxsAt hd hsd hsince.2.1)
      · rw [doesExceedThreshold_eq] at hse
        rcases ((h.mem_getExceedChainFor he).mp hxe).2 with rfl | ⟨-, hsince', hgt⟩
        · rw [hse] at hunpaid
          cases hunpaid
        · have hheight := SinceLastPaid.height_eq hd he hsd hse hsince hsince'
          have heq : d = e := h.together_of_counted he hd hse hsd (hpaid d hd hsd) hheight.symm hgt
          rw [heq]
          exact hgt
    exact ⟨fun e he hse hheight => h.together_of_counted hd he hsd hse (hpaid e he hse) hheight hgt,
      hgt⟩
  · rw [Bool.eq_false_iff]
    intro hgt
    exact hne (h.together_of_counted hd he hsd hse (hpaid e he hse) hheight hgt)
  · -- Nothing takes it along, so it is in the fund.
    have hfund : x ∈ v.fundTxsAt v.tipHeight := by
      rcases hcount x hx hmature with ⟨hfund, -⟩ | ⟨-, d, ⟨hd, hsd, hxd⟩, -⟩
      · exact hfund
      · rw [doesExceedThreshold_eq] at hsd
        have hbelow := hnone d hd hsd
        rcases ((h.mem_getExceedChainFor hd).mp hxd).2 with rfl | ⟨-, hsince, -⟩
        · exact absurd hbelow (lt_irrefl _)
        · exact absurd hbelow (not_lt.mpr hsince.2.1)
    rw [Bool.eq_false_iff]
    intro hge
    have hpriors : v.exceedsThresholdWithPriors y = true := by
      refine exceedsThresholdWithPriors_iff.mpr ⟨himmature, fun p hp hne => ?_, hge⟩
      obtain ⟨hp, hple, -⟩ := mem_getPayoutsBefore.mp hp
      exact hfirst p hp (lt_of_le_of_ne hple hne)
    have hlater := (h.mem_fundTxsAt.mp hfund).2.2.2
    rw [Bool.eq_false_iff] at hlater
    refine hlater (exceedsThresholdWithSubsequents_iff.mpr
      ⟨y, hy, hle, hlt, fun hhash => ?_, .inr hpriors⟩)
    rw [h.eq_of_hash hx hy hhash, himmature] at hmature
    cases hmature

/-- A paid contribution is paid out with itself, and nothing else takes it along. -/
theorem countedOnce_paid (hacc : v.Accountable) (hx : x ∈ v.mapLedger)
    (hsolo : v.exceedsThresholdSolo x = true) : v.CountedOnce x := by
  refine .inr ⟨h.notMem_fundTxsAt hx hsolo le_rfl, x,
    ⟨hx, by rw [doesExceedThreshold_eq]; exact hsolo, h.self_mem_getExceedChainFor hx hsolo⟩, ?_⟩
  rintro e ⟨he, hse, hxe⟩
  rw [doesExceedThreshold_eq] at hse
  rcases ((h.mem_getExceedChainFor he).mp hxe).2 with heq | ⟨-, hsince, hgt⟩
  · exact heq.symm
  · have hheight : x.height = e.height := by
      rcases lt_or_eq_of_le hsince.2.1 with hlt | heq
      · exact absurd (hsince.2.2 x hx hsolo hlt) (lt_irrefl _)
      · exact heq
    rw [hacc.together e he x hx hse hsolo hsince.1 hheight] at hgt
    cases hgt

/-- A small contribution is paid out with the next paid one, or is in the fund. -/
theorem countedOnce_unpaid (hacc : v.Accountable) (hx : x ∈ v.mapLedger)
    (hmature : v.isMature x = true) (hunpaid : v.exceedsThresholdSolo x = false) : v.CountedOnce x := by
  have hne : ∀ d, v.exceedsThresholdSolo d = true → x ≠ d := by
    rintro d hsd rfl
    rw [hsd] at hunpaid
    cases hunpaid
  by_cases hlater : ∃ d ∈ v.mapLedger, v.exceedsThresholdSolo d = true ∧ x.height ≤ d.height
  · -- The next one is the lowest of those above.
    obtain ⟨d₀, hd₀, hsd₀, hle₀⟩ := hlater
    obtain ⟨d, hd, hmin⟩ := Finset.exists_min_image
      (v.mapLedger.toFinset.filter fun d => v.exceedsThresholdSolo d = true ∧ x.height ≤ d.height)
      CDividendTx.height ⟨d₀, by simp [hd₀, hsd₀, hle₀]⟩
    simp only [Finset.mem_filter, mem_toFinset] at hd hmin
    obtain ⟨hd, hsd, hle⟩ := hd
    have hsince : v.SinceLastPaid d x := by
      refine ⟨hne d hsd, hle, fun p hp hsp hbelow => ?_⟩
      by_contra hnot
      exact absurd hbelow (not_lt.mpr (hmin p ⟨hp, hsp, not_lt.mp hnot⟩))
    obtain ⟨honly, hgt⟩ := hacc.leftovers d hd hsd x hx hsince hunpaid
    refine .inr ⟨h.notMem_fundTxsAt hd hsd hle, d, ⟨hd, by rw [doesExceedThreshold_eq]; exact hsd,
      (h.mem_getExceedChainFor hd).mpr ⟨hsd, .inr ⟨hx, hsince, hgt⟩⟩⟩, ?_⟩
    rintro e ⟨he, hse, hxe⟩
    rw [doesExceedThreshold_eq] at hse
    rcases ((h.mem_getExceedChainFor he).mp hxe).2 with heq | ⟨-, hsince', -⟩
    · exact absurd heq (hne e hse)
    · exact honly e he hse (SinceLastPaid.height_eq hd he hsd hse hsince hsince')
  · have hbelow : ∀ d ∈ v.mapLedger, v.exceedsThresholdSolo d = true → d.height < x.height :=
      fun d hd hsd => not_le.mp fun hle => hlater ⟨d, hd, hsd, hle⟩
    refine .inl ⟨h.mem_fundTxsAt.mpr ⟨hx, hmature, hunpaid, ?_⟩, fun d hd hsd hxd => ?_⟩
    · rw [Bool.eq_false_iff, ne_eq, exceedsThresholdWithSubsequents_iff]
      rintro ⟨y, hy, hle, hlt, -, hsolo | hpriors⟩
      · exact hlater ⟨y, hy, hsolo, hle⟩
      · obtain ⟨himmature, hfirst, hge⟩ := exceedsThresholdWithPriors_iff.mp hpriors
        rw [hacc.pending x hx hmature hbelow y hy hle hlt himmature ?_] at hge
        · cases hge
        · intro p hp hplt
          refine hfirst p (mem_getPayoutsBefore.mpr ⟨hp, hplt.le, ?_, fun hhash => ?_⟩) hplt.ne
          · have := h.height_pos p hp
            omega
          · rw [h.eq_of_hash hy hp hhash] at hplt
            exact lt_irrefl _ hplt
    · rw [doesExceedThreshold_eq] at hsd
      rcases ((h.mem_getExceedChainFor hd).mp hxd).2 with heq | ⟨-, hsince, -⟩
      · exact hne d hsd heq
      · exact absurd (hbelow d hd hsd) (not_lt.mpr hsince.2.1)

/-- **When every contribution is counted once.** -/
theorem counted_once_iff :
    (∀ x ∈ v.mapLedger, v.isMature x = true → v.CountedOnce x) ↔ v.Accountable := by
  refine ⟨h.accountable, fun hacc x hx hmature => ?_⟩
  cases hsolo : v.exceedsThresholdSolo x with
  | true => exact h.countedOnce_paid hacc hx hsolo
  | false => exact h.countedOnce_unpaid hacc hx hmature hsolo

/-! ## Sums -/

theorem nodup_mapLedger : v.mapLedger.Nodup := h.nodup.of_map _

omit h in
/-- A part of the ledger, summed over all of it. -/
theorem sum_credit_eq {l : List CDividendTx} (hnodup : l.Nodup) (hsub : ∀ x ∈ l, x ∈ v.mapLedger) :
    (l.map (·.credit)).sum = ∑ x ∈ v.mapLedger.toFinset, if x ∈ l then x.credit else 0 := by
  rw [← sum_toFinset _ hnodup, ← Finset.sum_filter]
  refine Finset.sum_congr (Finset.ext fun x => ?_) fun _ _ => rfl
  rw [mem_toFinset, Finset.mem_filter, mem_toFinset]
  exact ⟨fun hx => ⟨hsub x hx, hx⟩, fun hx => hx.2⟩

theorem nodup_getExceedChainFor (hd : d ∈ v.mapLedger) : (v.getExceedChainFor d).Nodup := by
  have hpriors : (v.getPayoutsBefore d (v.getPaidBlockBefore d)).Nodup :=
    (h.getPayoutsBefore_filter hd).nodup_iff.mpr (h.nodup_mapLedger.filter _)
  rw [getExceedChainFor]
  split
  · dsimp only
    split
    · refine nodup_append_comm.mp (nodup_cons.mpr ⟨fun hd => ?_, hpriors⟩)
      exact (mem_getPayoutsBefore.mp hd).2.2.2 rfl
    · exact nodup_singleton d
  · exact nodup_nil

theorem nodup_fundTxsAt (blockHeight : Int) : (v.fundTxsAt blockHeight).Nodup := by
  have hordered : v.getOrdered.Nodup :=
    ((v.std.perm _).trans h.ordered).nodup_iff.mpr h.nodup_mapLedger
  exact (hordered.filter _).filter _

/-- What is paid out with a contribution has matured with it. -/
theorem isMature_of_mem_getExceedChainFor (hd : d ∈ v.mapLedger)
    (hx : x ∈ v.getExceedChainFor d) : x ∈ v.mapLedger ∧ v.isMature x = true := by
  obtain ⟨hsolo, heq | ⟨hx, hsince, -⟩⟩ := (h.mem_getExceedChainFor hd).mp hx
  · rw [heq]
    exact ⟨hd, isMature_of_exceedsThresholdSolo hsolo⟩
  · exact ⟨hx, isMature_of_le hsince.2.1 (isMature_of_exceedsThresholdSolo hsolo)⟩

/-- The share of one contribution in all payouts and the fund: its credit, once. -/
theorem share_eq (hcount : v.isMature x = true → v.CountedOnce x) :
    (∑ d ∈ v.mapLedger.toFinset.filter (fun d => v.doesExceedThreshold d = true),
        if x ∈ v.getExceedChainFor d then x.credit else 0) +
      (if x ∈ v.fundTxsAt v.tipHeight then x.credit else 0) =
      if v.isMature x = true then x.credit else 0 := by
  have hmem : ∀ d ∈ v.mapLedger.toFinset.filter (fun d => v.doesExceedThreshold d = true),
      d ∈ v.mapLedger ∧ v.doesExceedThreshold d = true := by
    intro d hd
    rwa [Finset.mem_filter, mem_toFinset] at hd
  by_cases hmature : v.isMature x = true
  · rw [if_pos hmature]
    rcases hcount hmature with ⟨hfund, hnone⟩ | ⟨hfund, d, ⟨hd, hpaid, hxd⟩, honly⟩
    · rw [if_pos hfund, Finset.sum_eq_zero, zero_add]
      intro d hd
      exact if_neg (hnone d (hmem d hd).1 (hmem d hd).2)
    · rw [if_neg hfund, add_zero, Finset.sum_eq_single d]
      · exact if_pos hxd
      · intro e he hne
        exact if_neg fun hxe => hne (honly e ⟨(hmem e he).1, (hmem e he).2, hxe⟩)
      · intro hnot
        exact absurd (Finset.mem_filter.mpr ⟨mem_toFinset.mpr hd, hpaid⟩) hnot
  · rw [if_neg hmature, if_neg fun hfund => hmature (h.mem_fundTxsAt.mp hfund).2.1, add_zero]
    refine Finset.sum_eq_zero fun d hd => if_neg fun hxd => hmature ?_
    exact (h.isMature_of_mem_getExceedChainFor (hmem d hd).1 hxd).2

/-- **The sums agree**: all that was distributed and all that is in the fund is all that has
matured. -/
theorem funds_add_up (hcount : ∀ x ∈ v.mapLedger, v.isMature x = true → v.CountedOnce x) :
    ((v.mapLedger.filter v.doesExceedThreshold).map v.fundOf).sum +
      v.getDividendFundAt v.tipHeight = ((v.mapLedger.filter v.isMature).map (·.credit)).sum := by
  have hpaid : ((v.mapLedger.filter v.doesExceedThreshold).map v.fundOf).sum =
      ∑ x ∈ v.mapLedger.toFinset,
        ∑ d ∈ v.mapLedger.toFinset.filter (fun d => v.doesExceedThreshold d = true),
          if x ∈ v.getExceedChainFor d then x.credit else 0 := by
    rw [← sum_toFinset _ (h.nodup_mapLedger.filter _), toFinset_filter, Finset.sum_comm]
    refine Finset.sum_congr rfl fun d hd => ?_
    have hd' : d ∈ v.mapLedger := mem_toFinset.mp (Finset.mem_filter.mp hd).1
    exact sum_credit_eq (h.nodup_getExceedChainFor hd') fun x hx =>
      (h.isMature_of_mem_getExceedChainFor hd' hx).1
  have hmature : ((v.mapLedger.filter v.isMature).map (·.credit)).sum =
      ∑ x ∈ v.mapLedger.toFinset, if v.isMature x = true then x.credit else 0 := by
    rw [← sum_toFinset _ (h.nodup_mapLedger.filter _), toFinset_filter, Finset.sum_filter]
  rw [hpaid, hmature, getDividendFundAt, sum_credit_eq (h.nodup_fundTxsAt _) fun x hx =>
    (h.mem_fundTxsAt.mp hx).1, ← Finset.sum_add_distrib]
  exact Finset.sum_congr rfl fun x hx => h.share_eq (hcount x (mem_toFinset.mp hx))

/-- **Dividend accounting.** Every contribution that has matured is in the fund or is paid out with
exactly one dividend, if and only if the ledger is accountable; and then nothing is lost or paid
twice in sum. -/
theorem contributions_conserved_iff :
    ((∀ x ∈ v.mapLedger, v.isMature x = true → v.CountedOnce x) ↔ v.Accountable) ∧
      (v.Accountable → ((v.mapLedger.filter v.doesExceedThreshold).map v.fundOf).sum +
        v.getDividendFundAt v.tipHeight = ((v.mapLedger.filter v.isMature).map (·.credit)).sum) :=
  ⟨h.counted_once_iff, fun hacc => h.funds_add_up (h.counted_once_iff.mpr hacc)⟩

end OneChain

end DividendView

/-! ## Two small ledgers -/

/-- A ledger on the main network, with the tip at height 20. -/
def ledgerView (txs : List CDividendTx) : DividendView where
  std := .stable
  threshold := .exact
  nLastPOWBlock := 100
  tipHeight := 20
  mapLedger := txs
  dtxOrdered := txs

/-- One coin at height 1, below the threshold. -/
def smallContribution : CDividendTx := ⟨1, 1, COIN⟩

/-- A thousand coins, well above the threshold. -/
def largeContribution (hash : Uint256) (height : Int) : CDividendTx := ⟨hash, height, 1000 * COIN⟩

theorem ledgerView_oneChain {txs : List CDividendTx}
    (hnodup : (txs.map CDividendTx.hash).Nodup) (hpos : ∀ x ∈ txs, 0 < x.height) :
    (ledgerView txs).OneChain :=
  ⟨hnodup, List.Perm.refl _, hpos⟩

/-- A small contribution before a large one is neither paid out nor in the fund; two large ones in
a block are paid out twice each. -/
theorem contributions_lost_and_doubled :
    let lost := ledgerView [smallContribution, largeContribution 2 2]
    let doubled := ledgerView [largeContribution 1 2, largeContribution 2 2]
    lost.OneChain ∧ lost.isMature smallContribution = true ∧ ¬ lost.CountedOnce smallContribution ∧
      ((lost.mapLedger.filter lost.doesExceedThreshold).map lost.fundOf).sum +
        lost.getDividendFundAt 20 = 1000 * COIN ∧
      doubled.OneChain ∧ ¬ doubled.CountedOnce (largeContribution 1 2) ∧
      ((doubled.mapLedger.filter doubled.doesExceedThreshold).map doubled.fundOf).sum +
        doubled.getDividendFundAt 20 = 4000 * COIN := by
  refine ⟨ledgerView_oneChain (by decide) (by decide), by decide, ?_, by decide +kernel,
    ledgerView_oneChain (by decide) (by decide), ?_, by decide +kernel⟩
  · intro hcount
    have hnone : ∀ d ∈ (ledgerView [smallContribution, largeContribution 2 2]).mapLedger,
        smallContribution ∉ (ledgerView [smallContribution,
          largeContribution 2 2]).getExceedChainFor d := by
      decide +kernel
    rcases hcount with ⟨hfund, -⟩ | ⟨-, d, ⟨hd, -, hmem⟩, -⟩
    · exact absurd hfund (by decide +kernel)
    · exact hnone d hd hmem
  · intro hcount
    have heq := hcount.eq (d := largeContribution 1 2) (e := largeContribution 2 2) (by decide)
      (by decide +kernel) (by decide +kernel) (by decide) (by decide +kernel) (by decide +kernel)
    exact absurd heq (by decide)

/-- Two large contributions in blocks of their own, with a waiting one behind them. -/
theorem contributions_conserved_apart :
    let v := ledgerView [largeContribution 1 2, largeContribution 2 4, ⟨3, 6, COIN⟩]
    (∀ x ∈ v.mapLedger, v.isMature x = true → v.CountedOnce x) ∧
      ((v.mapLedger.filter v.doesExceedThreshold).map v.fundOf).sum + v.getDividendFundAt 20 =
        ((v.mapLedger.filter v.isMature).map (·.credit)).sum := by
  intro v
  have hacc : v.Accountable := ⟨by decide +kernel, by decide +kernel, by decide +kernel⟩
  obtain ⟨hiff, hsums⟩ := DividendView.OneChain.contributions_conserved_iff
    (show v.OneChain from ledgerView_oneChain (by decide) (by decide))
  exact ⟨hiff.mpr hacc, hsums hacc⟩

end Chratos
