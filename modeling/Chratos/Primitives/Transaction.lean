import Chratos.Amount
import Chratos.Serialize
import Chratos.Primitives.Script
import Mathlib.Algebra.BigOperators.Group.List.Basic

/-!
# Chratos — transactions and blocks (`primitives/transaction.h`, `primitives/block.h`)

The data that consensus code reads, its wire form, and the shape predicates that decide
which rules apply to a transaction: a *coinbase* has a single null input, a *coinstake* a
non-null first input and an empty first output. Both are read off the transaction itself,
never off its place in a block.

`GetValueOut` throws on any value or partial sum outside the money range; what it returns is
the exact sum of the outputs (`getValueOut_eq_some`).
-/

namespace Chratos

open Codec List

abbrev Uint256 := BitVec 256

instance : LawfulBEq Uint256 := inferInstance

def serUint256 (h : Uint256) : List UInt8 := leBytes 32 h.toNat

/-- Two's-complement 32-bit field. -/
def serInt32 (n : Int) : List UInt8 := leBytes 4 (n % 2 ^ 32).toNat

def serUInt32 (n : UInt32) : List UInt8 := leBytes 4 n.toNat

/-- A byte vector or string: one opaque blob behind its length. -/
def serBytes (bs : List UInt8) : List UInt8 := writeCompactSize bs.length ++ bs

/-! ## Inputs and outputs -/

structure COutPoint where
  hash : Uint256
  n : UInt32
  deriving DecidableEq, Repr

namespace COutPoint

def isNull (o : COutPoint) : Bool := o.hash = 0 ∧ o.n = 0xffffffff

def serialize (o : COutPoint) : List UInt8 := serUint256 o.hash ++ serUInt32 o.n

end COutPoint

structure CTxIn where
  prevout : COutPoint
  scriptSig : CScript
  nSequence : UInt32
  deriving DecidableEq, Repr

def CTxIn.serialize (i : CTxIn) : List UInt8 :=
  i.prevout.serialize ++ serBytes i.scriptSig ++ serUInt32 i.nSequence

structure CTxOut where
  nValue : Int
  scriptPubKey : CScript
  deriving DecidableEq, Repr

namespace CTxOut

/-- The output of a coin entry that has been spent or never was. -/
def null : CTxOut := ⟨-1, []⟩

def isNull (o : CTxOut) : Bool := o.nValue = -1

def isEmpty (o : CTxOut) : Bool := o.nValue = 0 ∧ o.scriptPubKey = []

def serialize (o : CTxOut) : List UInt8 :=
  leBytes 8 (o.nValue % 2 ^ 64).toNat ++ serBytes o.scriptPubKey

@[simp] theorem isNull_null : null.isNull = true := rfl

theorem not_isNull_of_moneyRange {o : CTxOut} (h : moneyRange o.nValue = true) :
    o.isNull = false := by
  rw [moneyRange_iff] at h
  simp only [isNull, decide_eq_false_iff_not]
  omega

end CTxOut

/-! ## Transactions -/

/-- A transaction. The serialiser asserts that there are no more witnesses than inputs; the
assertion is the last field. -/
structure CTransaction where
  nVersion : Int
  nTime : UInt32
  vin : List CTxIn
  vout : List CTxOut
  wit : List (List (List UInt8)) := []
  nLockTime : UInt32
  strDZeel : List UInt8 := []
  wit_le : wit.length ≤ vin.length := by simp
  deriving DecidableEq, Repr

namespace CTransaction

section

variable (tx : CTransaction)

def isCoinBase : Bool :=
  match tx.vin with
  | [i] => i.prevout.isNull
  | _ => false

def isCoinStake : Bool :=
  match tx.vin, tx.vout with
  | i :: _, o :: _ :: _ => !i.prevout.isNull && o.isEmpty
  | _, _ => false

/-- Some input carries a non-empty witness stack. -/
def hasWitness : Bool := tx.wit.any (!·.isEmpty)

def serializeBody : List UInt8 :=
  serVector CTxIn.serialize tx.vin ++ serVector CTxOut.serialize tx.vout

/-- Lock time, and the free-text field from version 2 on. -/
def serializeTail : List UInt8 :=
  serUInt32 tx.nLockTime ++ if 2 ≤ tx.nVersion then serBytes tx.strDZeel else []

/-- One witness stack for each input; the missing ones are empty. -/
def serializeWitness : List UInt8 :=
  (tx.wit ++ List.replicate (tx.vin.length - tx.wit.length) []).flatMap (serVector serBytes)

/-- `SerializeTransaction`; `fWitness` is the absence of the no-witness flag. The extended
format is announced by an empty input vector and a flags byte. -/
def serialize (fWitness : Bool) : List UInt8 :=
  serInt32 tx.nVersion ++ serUInt32 tx.nTime ++ (if fWitness && tx.hasWitness then
      [0, 1] ++ tx.serializeBody ++ tx.serializeWitness
    else tx.serializeBody) ++
    tx.serializeTail

end

section

variable (hash256 : List UInt8 → Uint256) (tx : CTransaction)

def getHash : Uint256 :=
  hash256 (tx.serialize false)

def getWitnessHash : Uint256 :=
  hash256 (tx.serialize true)

/-- One round of `GetValueOut`; `none` is the exception. -/
def addValueOut (nValueOut : Int) (o : CTxOut) : Option Int :=
  let nValueOut := int64 (nValueOut + o.nValue)
  if !moneyRange o.nValue || !moneyRange nValueOut then none else some nValueOut

def getValueOut : Option Int := tx.vout.foldlM addValueOut 0

/-- The exact sum of the outputs. -/
def valueOut : Int := (tx.vout.map CTxOut.nValue).sum

end

/-! ### What the shapes say -/

variable {tx : CTransaction}

theorem isCoinBase_iff : tx.isCoinBase = true ↔ ∃ i, tx.vin = [i] ∧ i.prevout.isNull = true := by
  unfold isCoinBase
  split
  · rename_i i hvin
    simp [hvin]
  · rename_i hne
    simp only [Bool.false_eq_true, false_iff, not_exists, not_and]
    intro i hvin
    exact (hne i hvin).elim

theorem isCoinStake_iff :
    tx.isCoinStake = true ↔ ∃ i is o o' os, tx.vin = i :: is ∧ tx.vout = o :: o' :: os ∧
      i.prevout.isNull = false ∧ o.isEmpty = true := by
  unfold isCoinStake
  split
  · rename_i i is o o' os hvin hvout
    constructor
    · intro h
      simp only [Bool.and_eq_true, Bool.not_eq_true'] at h
      exact ⟨i, is, o, o', os, hvin, hvout, h⟩
    · rintro ⟨i, is, o, o', os, hvin', hvout', h⟩
      rw [hvin] at hvin'
      rw [hvout] at hvout'
      cases hvin'
      cases hvout'
      simp [h]
  · rename_i hne
    simp only [Bool.false_eq_true, false_iff]
    rintro ⟨i, is, o, o', os, hvin, hvout, -⟩
    exact hne _ _ _ _ _ hvin hvout

/-- The two shapes exclude each other: they disagree on the first input. -/
theorem not_isCoinStake_of_isCoinBase (h : tx.isCoinBase = true) : tx.isCoinStake = false := by
  obtain ⟨i, hvin, hnull⟩ := isCoinBase_iff.mp h
  by_contra hstake
  obtain ⟨j, js, o, o', os, hvin', -, hj, -⟩ := isCoinStake_iff.mp (by simpa using hstake)
  rw [hvin] at hvin'
  cases hvin'
  rw [hnull] at hj
  cases hj

theorem not_isCoinBase_of_isCoinStake (h : tx.isCoinStake = true) : tx.isCoinBase = false := by
  by_contra hcb
  rw [not_isCoinStake_of_isCoinBase (Bool.not_eq_false _ ▸ hcb)] at h
  cases h

/-! ### The sum of the outputs -/

theorem addValueOut_eq_some {a v : Int} {o : CTxOut} (ha : moneyRange a = true) :
    addValueOut a o = some v ↔
      v = a + o.nValue ∧ moneyRange o.nValue = true ∧ moneyRange v = true := by
  by_cases ho : moneyRange o.nValue = true
  · have hsum : int64 (a + o.nValue) = a + o.nValue := int64_add_of_moneyRange ha ho
    simp only [addValueOut, hsum, ho, Bool.not_true, Bool.false_or, Bool.not_eq_eq_eq_not, true_and]
    constructor
    · intro h
      split at h
      · cases h
      · rename_i hr
        cases h
        exact ⟨rfl, by simpa using hr⟩
    · rintro ⟨rfl, hr⟩
      simp [hr]
  · simp [addValueOut, ho]

private theorem foldlM_addValueOut {outs : List CTxOut} {a v : Int} (ha : moneyRange a = true)
    (h : outs.foldlM addValueOut a = some v) :
    v = a + (outs.map CTxOut.nValue).sum ∧ moneyRange v = true ∧
      ∀ o ∈ outs, moneyRange o.nValue = true := by
  induction outs generalizing a with
  | nil =>
    cases h
    simpa using ha
  | cons o outs ih =>
    obtain ⟨b, hb, hrest⟩ := Option.bind_eq_some_iff.mp h
    obtain ⟨rfl, ho, hbr⟩ := (addValueOut_eq_some ha).mp hb
    obtain ⟨hv, hvr, hall⟩ := ih hbr hrest
    refine ⟨?_, hvr, ?_⟩
    · rw [hv, map_cons, sum_cons]
      omega
    · exact forall_mem_cons.mpr ⟨ho, hall⟩

/-- What `GetValueOut` returns when it does not throw. -/
theorem getValueOut_eq_some {v : Int} (h : tx.getValueOut = some v) :
    v = tx.valueOut ∧ moneyRange v = true ∧ ∀ o ∈ tx.vout, moneyRange o.nValue = true := by
  obtain ⟨hv, hr, hall⟩ := foldlM_addValueOut moneyRange_zero h
  refine ⟨?_, hr, hall⟩
  rw [hv, valueOut, zero_add]

end CTransaction

/-! ## Blocks -/

structure CBlockHeader where
  nVersion : Int
  hashPrevBlock : Uint256
  hashMerkleRoot : Uint256
  nTime : UInt32
  nBits : UInt32
  nNonce : UInt32
  deriving DecidableEq, Repr

def CBlockHeader.serialize (b : CBlockHeader) : List UInt8 :=
  serInt32 b.nVersion ++ serUint256 b.hashPrevBlock ++ serUint256 b.hashMerkleRoot ++
    serUInt32 b.nTime ++ serUInt32 b.nBits ++ serUInt32 b.nNonce

/-- `CBlockHeader::GetHash`: versions up to 6 are identified by the proof-of-work hash. -/
def CBlockHeader.getHash (hash256 hash9 : List UInt8 → Uint256) (b : CBlockHeader) : Uint256 :=
  if 6 < b.nVersion then hash256 b.serialize else hash9 b.serialize

/-- `fChecked` is memory only: `CheckBlock` has passed this block before. -/
structure CBlock extends CBlockHeader where
  vtx : List CTransaction
  vchBlockSig : List UInt8
  fChecked : Bool := false
  deriving DecidableEq, Repr

namespace CBlock

def isProofOfStake (block : CBlock) : Bool :=
  match block.vtx with
  | _ :: tx :: _ => tx.isCoinStake
  | _ => false

def isProofOfWork (block : CBlock) : Bool := !block.isProofOfStake

def serialize (block : CBlock) (fWitness : Bool) : List UInt8 :=
  block.toCBlockHeader.serialize ++ serVector (CTransaction.serialize · fWitness) block.vtx ++
    serBytes block.vchBlockSig

/-- Three times the size without witnesses plus the size with them. -/
def getBlockWeight (block : CBlock) : Nat :=
  (block.serialize false).length * 3 + (block.serialize true).length

end CBlock

/-! ## Sizes -/

/-- A transaction has no more inputs than bytes. -/
theorem CTransaction.length_vin_le (tx : CTransaction) :
    tx.vin.length ≤ (tx.serialize false).length := by
  have hvin : tx.vin.length ≤ (serVector CTxIn.serialize tx.vin).length :=
    length_le_serVector fun i _ => by
      simp only [CTxIn.serialize, COutPoint.serialize, serUint256, serUInt32, length_append,
        length_leBytes]
      omega
  simp only [CTransaction.serialize, Bool.false_and, Bool.false_eq_true, if_false,
    CTransaction.serializeBody, length_append]
  omega

/-- A transaction has no more outputs than bytes. -/
theorem CTransaction.length_vout_le (tx : CTransaction) :
    tx.vout.length ≤ (tx.serialize false).length := by
  have hvout : tx.vout.length ≤ (serVector CTxOut.serialize tx.vout).length :=
    length_le_serVector fun o _ => by
      simp only [CTxOut.serialize, length_append, length_leBytes]
      omega
  simp only [CTransaction.serialize, Bool.false_and, Bool.false_eq_true, if_false,
    CTransaction.serializeBody, length_append]
  omega

/-- A block has no more transactions than bytes. -/
theorem CBlock.length_vtx_le (block : CBlock) :
    block.vtx.length ≤ (block.serialize false).length := by
  have hvtx : block.vtx.length ≤ (serVector (CTransaction.serialize · false) block.vtx).length :=
    length_le_serVector fun tx _ => by
      simp only [CTransaction.serialize, serInt32, length_append, length_leBytes]
      omega
  simp only [CBlock.serialize, length_append]
  omega

end Chratos
