import Chratos.FeeRate
import Chratos.Lib.Outcome
import Chratos.Lib.Subset

/-!
# Chratos — choosing coins to spend (`wallet/wallet.cpp`)

`SelectCoinsMinConf` looks for coins worth a target. A coin of the very amount is taken at once.
Else the coins that are not much larger than the target are collected, and of the others the
smallest is kept. If the collected ones are worth too little, that larger one has to do. If they are
worth more, a random search looks for a part of them that is close to the target.

A coin comes with what the wallet knows of it: its confirmations, whether it can be spent, whether
the wallet itself made the transaction, and its amount with dividends (`GetAvailableAmount`). The
shuffle, the sort, which leaves the order of equal amounts open, and the random bits are given by
`Chance`.

`SelectCoins` puts coin control on top. Inputs selected by the user are either all that may be
spent, or are spent beside others. In the second case they are looked up in the wallet and count
with the amount written in the output, without dividends.
-/

namespace Chratos

open Outcome Subset

def MIN_CHANGE : Int := CENT

structure COutput where
  outpoint : COutPoint
  nDepth : Int
  fSpendable : Bool
  fFromMe : Bool
  nAvailable : Int
  deriving DecidableEq, Repr

/-- The worth of some coins. -/
def coinSum (coins : List COutput) : Int := (coins.map COutput.nAvailable).sum

/-- What is left to chance, and to the standard library. `bit call rep i` are the random bits of a
search. -/
structure Chance where
  shuffle : List COutput → List COutput
  shuffle_perm : ∀ coins, (shuffle coins).Perm coins
  sortDescending : List COutput → List COutput
  sort_perm : ∀ coins, (sortDescending coins).Perm coins
  sort_pairwise : ∀ coins, (sortDescending coins).Pairwise fun a b => b.nAvailable ≤ a.nAvailable
  bit : Nat → Nat → Nat → Bool

/-! ## The random search -/

structure SubsetSearch where
  vfIncluded : List Bool
  nTotal : Int
  fReachedTarget : Bool
  vfBest : List Bool
  nBest : Int

namespace SubsetSearch

section

variable (nTargetValue : Int) (vValue : List COutput)

/-- Coin `i` is put in, and taken out again if the target is reached. -/
def visit (s : SubsetSearch) (i : Nat) : SubsetSearch :=
  match vValue[i]? with
  | none => s
  | some coin =>
    let nTotal := int64 (s.nTotal + coin.nAvailable)
    let vfIncluded := s.vfIncluded.set i true
    if nTargetValue ≤ nTotal then
      { vfIncluded := vfIncluded.set i false
        nTotal := int64 (nTotal - coin.nAvailable)
        fReachedTarget := true
        vfBest := if nTotal < s.nBest then vfIncluded else s.vfBest
        nBest := if nTotal < s.nBest then nTotal else s.nBest }
    else { s with vfIncluded := vfIncluded, nTotal := nTotal }

/-- One pass over the coins; the first goes by random bits, the second takes what the first has left
out. -/
def pass (include? : SubsetSearch → Nat → Bool) (s : SubsetSearch) : SubsetSearch :=
  (List.range vValue.length).foldl (fun s i =>
    if include? s i then s.visit nTargetValue vValue i else s) s

def rep (bit : Nat → Bool) (s : SubsetSearch) : SubsetSearch :=
  let s := { s with
    vfIncluded := List.replicate vValue.length false
    nTotal := 0
    fReachedTarget := false }
  let s := s.pass nTargetValue vValue fun _ i => bit i
  if s.fReachedTarget then s
  else s.pass nTargetValue vValue fun s i => !s.vfIncluded.getD i false

end

end SubsetSearch

/-- `ApproximateBestSubset`: the flags and the amount of the best part found. -/
def approximateBestSubset (vValue : List COutput) (nTotalLower nTargetValue : Int)
    (bit : Nat → Nat → Bool) (iterations : Nat := 1000) : List Bool × Int :=
  let s : SubsetSearch :=
    { vfIncluded := [], nTotal := 0, fReachedTarget := false
      vfBest := List.replicate vValue.length true, nBest := nTotalLower }
  let s := (List.range iterations).foldl (fun s nRep =>
    if s.nBest = nTargetValue then s else s.rep nTargetValue vValue (bit nRep)) s
  (s.vfBest, s.nBest)

/-! ## Collecting -/

/-- Spendable, with enough confirmations. -/
def COutput.eligible (nConfMine nConfTheirs : Int) (output : COutput) : Bool :=
  output.fSpendable && !(output.nDepth < if output.fFromMe then nConfMine else nConfTheirs)

structure Collected where
  vValue : List COutput := []
  nTotalLower : Int := 0
  coinLowestLarger : Option COutput := none

/-- One coin; it ends the loop if it is worth the target. -/
def Collected.add (nTargetValue nConfMine nConfTheirs : Int) (c : Collected) (output : COutput) :
    Except COutput Collected :=
  if !output.eligible nConfMine nConfTheirs then .ok c
  else if output.nAvailable = nTargetValue then .error output
  else if output.nAvailable < int64 (nTargetValue + MIN_CHANGE) then
    .ok { c with
      vValue := c.vValue ++ [output]
      nTotalLower := int64 (c.nTotalLower + output.nAvailable) }
  else if output.nAvailable < (c.coinLowestLarger.map COutput.nAvailable).getD (2 ^ 63 - 1) then
    .ok { c with coinLowestLarger := some output }
  else .ok c

section

variable (chance : Chance) (nTargetValue : Int)

/-- The best part found, by one search or two. -/
def bestSubset (nTotalLower : Int) (vValue : List COutput) : List Bool × Int :=
  let best := approximateBestSubset vValue nTotalLower nTargetValue (chance.bit 0)
  if best.2 ≠ nTargetValue ∧ int64 (nTargetValue + MIN_CHANGE) ≤ nTotalLower then
    approximateBestSubset vValue nTotalLower (int64 (nTargetValue + MIN_CHANGE)) (chance.bit 1)
  else best

/-- What is taken of the collected coins: the coins and their amount. -/
def Collected.choose (c : Collected) : Option (List COutput × Int) :=
  if c.nTotalLower = nTargetValue then some (c.vValue, int64 (coinSum c.vValue))
  else if c.nTotalLower < nTargetValue then c.coinLowestLarger.map fun coin => ([coin], coin.nAvailable)
  else
    let vValue := chance.sortDescending c.vValue
    let best := bestSubset chance nTargetValue c.nTotalLower vValue
    match c.coinLowestLarger with
    | some coin =>
      if (best.2 ≠ nTargetValue ∧ best.2 < int64 (nTargetValue + MIN_CHANGE)) ∨
        coin.nAvailable ≤ best.2 then
        some ([coin], coin.nAvailable)
      else some (chosen vValue best.1, int64 (coinSum (chosen vValue best.1)))
    | none => some (chosen vValue best.1, int64 (coinSum (chosen vValue best.1)))

/-- `SelectCoinsMinConf`: `setCoinsRet` and `nValueRet`, or nothing. -/
def selectCoinsMinConf (nConfMine nConfTheirs : Int)
    (vCoins : List COutput) : Option (List COutput × Int) :=
  match (chance.shuffle vCoins).foldlM (Collected.add nTargetValue nConfMine nConfTheirs) {} with
  | .error output => some ([output], output.nAvailable)
  | .ok c => c.choose chance nTargetValue

end

/-! ## Coin control -/

structure CCoinControl where
  /-- The script of `destChange`, if the user gave an address for the change. -/
  scriptChange : Option CScript := none
  fAllowOtherInputs : Bool := false
  nMinimumTotalFee : Int := 0
  fOverrideFeeRate : Bool := false
  nFeeRate : CFeeRate := ⟨0⟩
  setSelected : List COutPoint := []

def CCoinControl.hasSelected (coinControl : CCoinControl) : Bool := !coinControl.setSelected.isEmpty

/-- Only the selected inputs may be spent. -/
def onlySelected (coinControl : Option CCoinControl) : Bool :=
  coinControl.any fun c => c.hasSelected && !c.fAllowOtherInputs

section

variable (mapWallet : Uint256 → Option (List CTxOut))

/-- The output of a wallet transaction. -/
def walletOutput (outpoint : COutPoint) : Option CTxOut :=
  (mapWallet outpoint.hash).bind fun vout => vout[outpoint.n.toNat]?

/-- The inputs the user wants to be spent, and what they count. -/
def presetInputs (vPresetInputs : List COutPoint) : Option (List COutPoint × Int) :=
  vPresetInputs.foldlM (fun s outpoint =>
    (walletOutput mapWallet outpoint).map fun o => (s.1 ++ [outpoint], int64 (s.2 + o.nValue))) ([], 0)

/-- The attempts with fewer and fewer confirmations. -/
def selectCoinsRelaxed (chance : Nat → Chance) (bSpendZeroConfChange : Bool) (nTargetValue : Int)
    (vCoins : List COutput) : Option (List COutput × Int) :=
  (selectCoinsMinConf (chance 0) nTargetValue 1 6 vCoins).or <|
  (selectCoinsMinConf (chance 1) nTargetValue 1 1 vCoins).or <|
  if bSpendZeroConfChange then selectCoinsMinConf (chance 2) nTargetValue 0 1 vCoins else none

/-- `SelectCoins`: the outpoints to spend and what they count. -/
def selectCoins (chance : Nat → Chance)
    (bSpendZeroConfChange : Bool) (vAvailableCoins : List COutput) (nTargetValue : Int)
    (coinControl : Option CCoinControl) : Option (List COutPoint × Int) :=
  if onlySelected coinControl then
    let vCoins := vAvailableCoins.filter COutput.fSpendable
    let nValueRet := int64 (coinSum vCoins)
    if nTargetValue ≤ nValueRet then some (vCoins.map COutput.outpoint, nValueRet) else none
  else
    (presetInputs mapWallet (coinControl.elim [] CCoinControl.setSelected)).bind fun preset =>
      if nTargetValue ≤ preset.2 then some preset
      else
        let vCoins := vAvailableCoins.filter fun coin => !preset.1.contains coin.outpoint
        (selectCoinsRelaxed chance bSpendZeroConfChange (int64 (nTargetValue - preset.2)) vCoins).map
          fun selected => (selected.1.map COutput.outpoint ++ preset.1, int64 (selected.2 + preset.2))

end

end Chratos
