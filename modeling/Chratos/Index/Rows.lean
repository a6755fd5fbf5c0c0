import Chratos.Coins.Update
import Chratos.Lib.Batch

/-!
# Chratos — rows of the optional indexes (`addressindex.h`, `spentindex.h`, `txdb.cpp`)

With the address and spent indexes on, connecting a block collects rows for three tables and
writes them in one batch each. The address index has a row for every receipt and every spend
of an address; the unspent index one for every unspent output of an address; the spent index
one for every output spent. Scripts that are neither pay-to-pubkey-hash nor
pay-to-script-hash have no address.
-/

namespace Chratos

/-- The kind of address a script pays to and its hash; kind 0 is none. -/
def scriptAddress (script : CScript) : Nat × List UInt8 :=
  if isPayToScriptHash script then (2, (script.drop 2).take 20)
  else if isPayToPublicKeyHash script then (1, (script.drop 3).take 20)
  else (0, List.replicate 20 0)

structure CAddressIndexKey where
  type : Nat
  hashBytes : List UInt8
  blockHeight : Nat
  txindex : Nat
  txhash : Uint256
  index : Nat
  spending : Bool
  deriving DecidableEq, Repr

structure CAddressUnspentKey where
  type : Nat
  hashBytes : List UInt8
  txhash : Uint256
  index : Nat
  deriving DecidableEq, Repr

structure CAddressUnspentValue where
  satoshis : Int
  script : CScript
  blockHeight : Nat
  deriving DecidableEq, Repr

structure CSpentIndexKey where
  txid : Uint256
  outputIndex : Nat
  deriving DecidableEq, Repr

structure CSpentIndexValue where
  txid : Uint256
  inputIndex : Nat
  blockHeight : Nat
  satoshis : Int
  addressType : Nat
  addressHash : List UInt8
  deriving DecidableEq, Repr

def CAddressUnspentValue.null : CAddressUnspentValue := ⟨-1, [], 0⟩

def CAddressUnspentValue.isNull (v : CAddressUnspentValue) : Bool := v.satoshis = -1

def CSpentIndexValue.null : CSpentIndexValue := ⟨0, 0, 0, 0, 0, List.replicate 20 0⟩

def CSpentIndexValue.isNull (v : CSpentIndexValue) : Bool := v.txid = 0

/-- The rows collected while a block is connected or disconnected, in order. -/
structure IndexRows where
  addressIndex : List (CAddressIndexKey × Int) := []
  addressUnspentIndex : List (CAddressUnspentKey × CAddressUnspentValue) := []
  spentIndex : List (CSpentIndexKey × CSpentIndexValue) := []

def IndexRows.append (a b : IndexRows) : IndexRows where
  addressIndex := a.addressIndex ++ b.addressIndex
  addressUnspentIndex := a.addressUnspentIndex ++ b.addressUnspentIndex
  spentIndex := a.spentIndex ++ b.spentIndex

/-- Groups of rows, one after another. -/
def IndexRows.collect {α : Type} (f : α → IndexRows) (xs : List α) : IndexRows where
  addressIndex := xs.flatMap fun x => (f x).addressIndex
  addressUnspentIndex := xs.flatMap fun x => (f x).addressUnspentIndex
  spentIndex := xs.flatMap fun x => (f x).spentIndex

@[simp] theorem IndexRows.append_empty (a : IndexRows) : a.append {} = a := by
  simp [IndexRows.append]

theorem IndexRows.append_assoc (a b c : IndexRows) :
    (a.append b).append c = a.append (b.append c) := by
  simp [IndexRows.append]

theorem IndexRows.collect_cons {α : Type} (f : α → IndexRows) (x : α) (xs : List α) :
    IndexRows.collect f (x :: xs) = (f x).append (IndexRows.collect f xs) := by
  simp [IndexRows.collect, IndexRows.append]

/-! ## Rows of a connected transaction -/

/-- Rows for the `j`-th input of the `i`-th transaction, spending `prevout`. -/
def connectInputRows (fAddressIndex fSpentIndex : Bool) (nHeight i : Nat) (txhash : Uint256)
    (j : Nat) (input : CTxIn) (prevout : CTxOut) : IndexRows :=
  let (addressType, hashBytes) := scriptAddress prevout.scriptPubKey
  let fAddress := fAddressIndex && 0 < addressType
  { addressIndex := if fAddress then
      [(⟨addressType, hashBytes, nHeight, i, txhash, j, true⟩, int64 (prevout.nValue * -1))] else []
    addressUnspentIndex := if fAddress then
      [(⟨addressType, hashBytes, input.prevout.hash, input.prevout.n.toNat⟩,
        CAddressUnspentValue.null)] else []
    spentIndex := if fSpentIndex then
      [(⟨input.prevout.hash, input.prevout.n.toNat⟩,
        ⟨txhash, j, nHeight, prevout.nValue, addressType, hashBytes⟩)] else [] }

/-- Rows for the `k`-th output of the `i`-th transaction. -/
def connectOutputRows (nHeight i : Nat) (txhash : Uint256) (k : Nat) (out : CTxOut) : IndexRows :=
  let (addressType, hashBytes) := scriptAddress out.scriptPubKey
  if 0 < addressType then
    { addressIndex := [(⟨addressType, hashBytes, nHeight, i, txhash, k, false⟩, out.nValue)]
      addressUnspentIndex := [(⟨addressType, hashBytes, txhash, k⟩,
        ⟨out.nValue, out.scriptPubKey, nHeight⟩)] }
  else {}

/-! ## Tables -/

/-- The contents of the three tables. They are written in batches, in which a null value stands
for erasure. -/
structure IndexTables where
  addressIndex : CAddressIndexKey → Option Int
  addressUnspentIndex : CAddressUnspentKey → Option CAddressUnspentValue
  spentIndex : CSpentIndexKey → Option CSpentIndexValue

section

variable (rows : List (CAddressIndexKey × Int)) (table : CAddressIndexKey → Option Int)

def writeAddressIndex : CAddressIndexKey → Option Int :=
  Batch.apply some table rows

def eraseAddressIndex : CAddressIndexKey → Option Int :=
  Batch.apply (fun _ => none) table rows

end

def updateAddressUnspentIndex (rows : List (CAddressUnspentKey × CAddressUnspentValue))
    (table : CAddressUnspentKey → Option CAddressUnspentValue) :
    CAddressUnspentKey → Option CAddressUnspentValue :=
  Batch.apply (fun v => if v.isNull then none else some v) table rows

def updateSpentIndex (rows : List (CSpentIndexKey × CSpentIndexValue))
    (table : CSpentIndexKey → Option CSpentIndexValue) : CSpentIndexKey → Option CSpentIndexValue :=
  Batch.apply (fun v => if v.isNull then none else some v) table rows

end Chratos
