import Chratos.Primitives.Transaction
import Mathlib.Data.List.DropRight

/-!
# Chratos — the unspent outputs (`coins.h`, `coins.cpp`)

A `CCoins` holds what is left of one confirmed transaction: its outputs by position, a null
output where one has been spent, with the nulls at the end dropped (`Cleanup`). A view maps
every txid to such an entry; a txid the database has no entry for reads as the cleared entry,
which is what every caller of `AccessCoins` treats it as.

The layers of caches over the database are read through, so the model has one layer.
-/

namespace Chratos

structure CCoins where
  fCoinBase : Bool := false
  fCoinStake : Bool := false
  vout : List CTxOut := []
  nHeight : Nat := 0
  nVersion : Int := 0
  deriving DecidableEq, Repr

namespace CCoins

/-- `Clear`: the entry of a transaction nothing is known of. -/
def clear : CCoins := {}

def cleanup (c : CCoins) : CCoins := { c with vout := c.vout.rdropWhile CTxOut.isNull }

/-- An output no script can spend is dropped on entry. -/
def dropUnspendable (o : CTxOut) : CTxOut :=
  if isUnspendable o.scriptPubKey then CTxOut.null else o

def clearUnspendable (c : CCoins) : CCoins :=
  cleanup { c with vout := c.vout.map dropUnspendable }

def fromTx (tx : CTransaction) (nHeight : Nat) : CCoins :=
  clearUnspendable
    { fCoinBase := tx.isCoinBase, fCoinStake := tx.isCoinStake, vout := tx.vout,
      nHeight := nHeight, nVersion := tx.nVersion }

def isAvailable (c : CCoins) (nPos : Nat) : Bool :=
  match c.vout[nPos]? with
  | some o => !o.isNull
  | none => false

def isPruned (c : CCoins) : Bool := c.vout.all CTxOut.isNull

def spend (c : CCoins) (nPos : Nat) : CCoins :=
  if c.isAvailable nPos then cleanup { c with vout := c.vout.set nPos CTxOut.null } else c

/-- `operator==`: empty entries are equal, and the coinstake flag is not compared. -/
def eqv (a b : CCoins) : Bool :=
  (a.isPruned && b.isPruned) ||
    (a.fCoinBase = b.fCoinBase && a.nHeight = b.nHeight && a.nVersion = b.nVersion &&
      a.vout = b.vout)

/-- The output at a position, when it is there to be spent. -/
def output? (c : CCoins) (nPos : Nat) : Option CTxOut :=
  if c.isAvailable nPos then c.vout[nPos]? else none

/-! ## Availability -/

section

variable {c : CCoins} {n : Nat}

theorem isAvailable_iff : c.isAvailable n = true ↔ ∃ o, c.vout[n]? = some o ∧ o.isNull = false := by
  unfold isAvailable
  split
  · rename_i o ho
    simp [ho]
  · rename_i ho
    simp [ho]

theorem output?_eq_some {o : CTxOut} :
    c.output? n = some o ↔ c.vout[n]? = some o ∧ o.isNull = false := by
  unfold output?
  split
  · rename_i h
    obtain ⟨o', ho', hn⟩ := isAvailable_iff.mp h
    constructor
    · intro ho
      rw [ho'] at ho
      cases ho
      exact ⟨ho', hn⟩
    · exact fun ho => ho.1
  · rename_i h
    constructor
    · intro ho
      cases ho
    · exact fun ho => absurd (isAvailable_iff.mpr ⟨o, ho⟩) h

theorem vout_ne_nil {o : CTxOut} (h : c.output? n = some o) : c.vout ≠ [] :=
  List.ne_nil_of_mem (List.mem_of_getElem? (output?_eq_some.mp h).1)

theorem isAvailable_of_output? {o : CTxOut} (h : c.output? n = some o) : c.isAvailable n = true :=
  isAvailable_iff.mpr ⟨o, output?_eq_some.mp h⟩

theorem exists_output?_of_isAvailable (h : c.isAvailable n = true) : ∃ o, c.output? n = some o := by
  obtain ⟨o, ho⟩ := isAvailable_iff.mp h
  exact ⟨o, output?_eq_some.mpr ho⟩

end

end CCoins

/-! ## Views -/

structure CCoinsView where
  coins : Uint256 → CCoins
  hashBlock : Uint256

namespace CCoinsView

section

variable (view : CCoinsView) (txid : Uint256) (f : CCoins → CCoins)

/-- `ModifyCoins`: the entry is changed and the modifier's destructor cleans it up. -/
def modifyCoins : CCoinsView :=
  { view with coins := Function.update view.coins txid (f (view.coins txid)).cleanup }

/-- `ModifyNewCoins`: the entry starts out cleared. -/
def modifyNewCoins : CCoinsView :=
  { view with coins := Function.update view.coins txid (f CCoins.clear).cleanup }

def setBestBlock (hashBlock : Uint256) : CCoinsView :=
  { view with hashBlock := hashBlock }

/-- The output an input spends, if the view has it. -/
def output? (prevout : COutPoint) : Option CTxOut :=
  (view.coins prevout.hash).output? prevout.n.toNat

def haveInputs (tx : CTransaction) : Bool :=
  tx.isCoinBase || tx.vin.all fun i =>
    (view.coins i.prevout.hash).isAvailable i.prevout.n.toNat

end

section

variable (view : CCoinsView)
include view

@[simp] theorem modifyCoins_coins_self (txid : Uint256) (f : CCoins → CCoins) :
    (view.modifyCoins txid f).coins txid = (f (view.coins txid)).cleanup := by
  simp [modifyCoins]

@[simp] theorem modifyCoins_hashBlock (txid : Uint256)
    (f : CCoins → CCoins) : (view.modifyCoins txid f).hashBlock = view.hashBlock := rfl

variable {txid t : Uint256}

theorem modifyCoins_coins_of_ne (f : CCoins → CCoins) (h : t ≠ txid) :
    (view.modifyCoins txid f).coins t = view.coins t := by
  simp [modifyCoins, h]

@[simp] theorem modifyNewCoins_coins_self (txid : Uint256) (f : CCoins → CCoins) :
    (view.modifyNewCoins txid f).coins txid = (f CCoins.clear).cleanup := by
  simp [modifyNewCoins]

@[simp] theorem modifyNewCoins_hashBlock (txid : Uint256)
    (f : CCoins → CCoins) : (view.modifyNewCoins txid f).hashBlock = view.hashBlock := rfl

theorem modifyNewCoins_coins_of_ne (f : CCoins → CCoins) (h : t ≠ txid) :
    (view.modifyNewCoins txid f).coins t = view.coins t := by
  simp [modifyNewCoins, h]

end

theorem haveInputs_iff {view : CCoinsView} {tx : CTransaction} (hcb : tx.isCoinBase = false) :
    view.haveInputs tx = true ↔ ∀ i ∈ tx.vin, ∃ o, view.output? i.prevout = some o := by
  simp only [haveInputs, hcb, Bool.false_or, List.all_eq_true]
  constructor
  · intro h i hi
    exact CCoins.exists_output?_of_isAvailable (h i hi)
  · intro h i hi
    obtain ⟨o, ho⟩ := h i hi
    exact CCoins.isAvailable_of_output? ho

end CCoinsView

end Chratos
