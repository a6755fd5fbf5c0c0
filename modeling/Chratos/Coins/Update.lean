import Chratos.Coins.Coins
import Chratos.Consensus.State

/-!
# Chratos — spending and restoring outputs (`main.cpp`, `undo.h`)

`UpdateCoins` applies a transaction to a view: it blanks the outputs spent, records each in an
undo entry, and adds the transaction's own outputs. Only the entry of the *last* output taken
from a transaction carries that transaction's metadata. `ApplyTxInUndo` is the way back.
-/

namespace Chratos

open Outcome

/-- The output spent and, when it was the last one left, what else its entry held. -/
structure CTxInUndo where
  txout : CTxOut
  fCoinBase : Bool := false
  nHeight : Nat := 0
  nVersion : Int := 0
  deriving DecidableEq, Repr

abbrev CTxUndo := List CTxInUndo

/-- One undo entry list for each transaction but the coinbase. -/
abbrev CBlockUndo := List CTxUndo

/-! ## Spending

What a successful run has done, input by input (`updateCoins_eq_ok`).
-/

/-- The record of spending output `o` of an entry that `c` is left of. -/
def undoOf (o : CTxOut) (c : CCoins) : CTxInUndo :=
  if c.vout = [] then
    { txout := o, fCoinBase := c.fCoinBase, nHeight := c.nHeight, nVersion := c.nVersion }
  else { txout := o }

/-- One round over the inputs. An output that is not there is an assertion failure. -/
def spendInput (s : CCoinsView × CTxUndo) (txin : CTxIn) : Verdict (CCoinsView × CTxUndo) := do
  let coins := s.1.coins txin.prevout.hash
  let nPos := txin.prevout.n.toNat
  let o ← orAssert (coins.output? nPos)
  pure (s.1.modifyCoins txin.prevout.hash (·.spend nPos), s.2 ++ [undoOf o (coins.spend nPos)])

def spendInputs (view : CCoinsView) (tx : CTransaction) : Verdict (CCoinsView × CTxUndo) :=
  if tx.isCoinBase then pure (view, []) else tx.vin.foldlM spendInput (view, [])

/-- `UpdateCoins` for a transaction of the given id. -/
def updateCoins (txid : Uint256) (tx : CTransaction) (view : CCoinsView) (nHeight : Nat) :
    Verdict (CCoinsView × CTxUndo) := do
  let s ← spendInputs view tx
  pure (s.1.modifyNewCoins txid (fun _ => CCoins.fromTx tx nHeight), s.2)

theorem spendInput_eq_ok {s t : CCoinsView × CTxUndo} {txin : CTxIn}
    (h : spendInput s txin = .ok t) : ∃ o, s.1.output? txin.prevout = some o ∧
      t.1 = s.1.modifyCoins txin.prevout.hash (·.spend txin.prevout.n.toNat) ∧
      t.2 = s.2 ++ [undoOf o ((s.1.coins txin.prevout.hash).spend txin.prevout.n.toNat)] := by
  simp only [spendInput, bind_eq_ok, orAssert_eq_ok] at h
  obtain ⟨o, ho, ht⟩ := h
  cases ht
  exact ⟨o, ho, rfl, rfl⟩

variable {tx : CTransaction} {view view' : CCoinsView} {undo : CTxUndo}

theorem updateCoins_eq_ok {txid : Uint256} {nHeight : Nat}
    (h : updateCoins txid tx view nHeight = .ok (view', undo)) :
    ∃ spent, spendInputs view tx = .ok (spent, undo) ∧
      view' = spent.modifyNewCoins txid (fun _ => CCoins.fromTx tx nHeight) := by
  simp only [updateCoins, bind_eq_ok] at h
  obtain ⟨⟨spent, undo'⟩, hs, ht⟩ := h
  cases ht
  exact ⟨spent, hs, rfl⟩

/-- Spending leaves the best block alone. -/
theorem spendInputs_hashBlock (h : spendInputs view tx = .ok (view', undo)) :
    view'.hashBlock = view.hashBlock := by
  unfold spendInputs at h
  split at h
  · cases h
    rfl
  · have := foldlM_ok_rec (fun _ (s : CCoinsView × CTxUndo) => s.1.hashBlock = view.hashBlock)
      (fun _ i s t hs hstep => by
        obtain ⟨o, -, ht, -⟩ := spendInput_eq_ok hstep
        rw [ht, CCoinsView.modifyCoins_hashBlock, hs]) rfl h
    exact this

/-! ## Restoring -/

/-- The entry after an output has been put back, and whether that went without surprise. -/
def restoreOutput (undo : CTxInUndo) (nPos : Nat) (coins : CCoins) : CCoins × Bool :=
  let fClean := if undo.nHeight ≠ 0 then coins.isPruned else !coins.isPruned
  let coins := if undo.nHeight ≠ 0 then
    { fCoinBase := undo.fCoinBase, nHeight := undo.nHeight, nVersion := undo.nVersion } else coins
  let fClean := fClean && !coins.isAvailable nPos
  let vout := coins.vout ++ List.replicate (nPos + 1 - coins.vout.length) CTxOut.null
  ({ coins with vout := vout.set nPos undo.txout }, fClean)

/-- `ApplyTxInUndo`. -/
def applyTxInUndo (undo : CTxInUndo) (view : CCoinsView) (out : COutPoint) : CCoinsView × Bool :=
  let r := restoreOutput undo out.n.toNat (view.coins out.hash)
  (view.modifyCoins out.hash (fun _ => r.1), r.2)

end Chratos
