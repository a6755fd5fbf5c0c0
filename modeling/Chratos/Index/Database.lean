import Chratos.Index.Rows
import Chratos.Lib.KeyStore
import Chratos.Primitives.Unserialize

/-!
# Chratos — the address indexes on disk (`txdb.cpp`, `addressindex.h`)

`CBlockTreeDB` is one ordered store for several tables; the first byte of a key says which. The rows
of the address index begin with `'a'`, those of the unspent index with `'u'`. Then come the type and
the hash of the address; in the address index the height follows with its highest byte first, so
that the rows of an address are in the order of the chain.

`readAddressIndex` and `readAddressUnspentIndex` seek the address, or the address and a height, and
go on while the hash is the one asked for. The values are kept as they were written; a value of
another table is one that cannot be read.
-/

namespace Chratos

open Codec KeyStore List

inductive DbValue where
  | amount (nValue : Int)
  | unspent (value : CAddressUnspentValue)
  | other (bytes : List UInt8)
  deriving DecidableEq, Repr

abbrev CBlockTreeDB := Store DbValue

/-- The tag `'a'`. -/
def dbAddressIndex : UInt8 := 97

/-- The tag `'u'`. -/
def dbAddressUnspentIndex : UInt8 := 117

/-! ## Keys -/

def serWritedata32be (n : Nat) : List UInt8 := (leBytes 4 n).reverse

def serReaddata32be : Reader Nat := do
  let bytes ← readBytes 4
  pure (leNat bytes.reverse)

theorem reads_serReaddata32be {n : Nat} (hn : n < 256 ^ 4) :
    Reads serReaddata32be (serWritedata32be n) n := by
  have hlen : (serWritedata32be n).length = 4 := by simp [serWritedata32be]
  have h := (reads_readBytes hlen).map fun bytes => leNat bytes.reverse
  rw [serWritedata32be, reverse_reverse, leNat_leBytes, Nat.mod_eq_of_lt hn] at h
  exact h

theorem serWritedata32be_lt_iff {n m : Nat} (hn : n < 256 ^ 4) (hm : m < 256 ^ 4) :
    serWritedata32be n < serWritedata32be m ↔ n < m :=
  reverse_leBytes_lt_iff hn hm

structure CAddressIndexIteratorKey where
  type : Nat
  hashBytes : List UInt8

structure CAddressIndexIteratorHeightKey where
  type : Nat
  hashBytes : List UInt8
  blockHeight : Nat

def CAddressIndexIteratorKey.serialize (k : CAddressIndexIteratorKey) : List UInt8 :=
  [UInt8.ofNat k.type] ++ k.hashBytes

def CAddressIndexIteratorHeightKey.serialize (k : CAddressIndexIteratorHeightKey) : List UInt8 :=
  [UInt8.ofNat k.type] ++ k.hashBytes ++ serWritedata32be k.blockHeight

namespace CAddressIndexKey

def serialize (k : CAddressIndexKey) : List UInt8 :=
  [UInt8.ofNat k.type] ++
    (k.hashBytes ++ (serWritedata32be k.blockHeight ++ (serWritedata32be k.txindex ++
    (serUint256 k.txhash ++ (leBytes 4 k.index ++ [if k.spending then 1 else 0])))))

def unserialize : Reader CAddressIndexKey := do
  let type ← readByte
  let hashBytes ← readBytes 20
  let blockHeight ← serReaddata32be
  let txindex ← serReaddata32be
  let txhash ← unserUint256
  let index ← readLE 4
  let f ← readByte
  pure ⟨type.toNat, hashBytes, blockHeight, txindex, txhash, index, f ≠ 0⟩

/-- The fields are in the ranges of their types, and the height is not negative. -/
structure Fits (k : CAddressIndexKey) : Prop where
  type : k.type < 256
  hashBytes : k.hashBytes.length = 20
  blockHeight : k.blockHeight < 2 ^ 31
  txindex : k.txindex < 2 ^ 32
  index : k.index < 2 ^ 32

theorem reads_unserialize {k : CAddressIndexKey} (hk : k.Fits) : Reads unserialize k.serialize k := by
  obtain ⟨type, hashBytes, blockHeight, txindex, txhash, index, spending⟩ := k
  obtain ⟨htype, hhash, hheight, htxindex, hindex⟩ := hk
  have htypeByte : (UInt8.ofNat type).toNat = type := UInt8.toNat_ofNat_of_lt' htype
  have hspending : ((if spending then 1 else 0 : UInt8) ≠ 0 : Bool) = spending := by
    cases spending <;> rfl
  refine (reads_readByte _).bind ((reads_readBytes hhash).bind
    ((reads_serReaddata32be (lt_trans hheight (by decide))).bind
    ((reads_serReaddata32be htxindex).bind ((reads_unserUint256 txhash).bind
    ((reads_readLE hindex).bind ?_)))))
  have hlast := (reads_readByte (if spending then 1 else 0)).map fun f : UInt8 =>
    CAddressIndexKey.mk (UInt8.ofNat type).toNat hashBytes blockHeight txindex txhash index (f ≠ 0)
  rw [htypeByte, hspending] at hlast
  rw [htypeByte]
  exact hlast

end CAddressIndexKey

namespace CAddressUnspentKey

def serialize (k : CAddressUnspentKey) : List UInt8 :=
  [UInt8.ofNat k.type] ++ (k.hashBytes ++ (serUint256 k.txhash ++ leBytes 4 k.index))

def unserialize : Reader CAddressUnspentKey := do
  let type ← readByte
  let hashBytes ← readBytes 20
  let txhash ← unserUint256
  let index ← readLE 4
  pure ⟨type.toNat, hashBytes, txhash, index⟩

structure Fits (k : CAddressUnspentKey) : Prop where
  type : k.type < 256
  hashBytes : k.hashBytes.length = 20
  index : k.index < 2 ^ 32

theorem reads_unserialize {k : CAddressUnspentKey} (hk : k.Fits) : Reads unserialize k.serialize k := by
  obtain ⟨type, hashBytes, txhash, index⟩ := k
  obtain ⟨htype, hhash, hindex⟩ := hk
  have htypeByte : (UInt8.ofNat type).toNat = type := UInt8.toNat_ofNat_of_lt' htype
  refine (reads_readByte _).bind ((reads_readBytes hhash).bind ((reads_unserUint256 txhash).bind ?_))
  have hlast := (reads_readLE (k := 4) (n := index) hindex).map fun index =>
    CAddressUnspentKey.mk (UInt8.ofNat type).toNat hashBytes txhash index
  rw [htypeByte] at hlast
  rw [htypeByte]
  exact hlast

end CAddressUnspentKey

/-! ## Tables -/

def DbValue.amount? : DbValue → Option Int
  | .amount nValue => some nValue
  | _ => none

def DbValue.unspent? : DbValue → Option CAddressUnspentValue
  | .unspent value => some value
  | _ => none

def addressIndexTable : Table CAddressIndexKey Int DbValue where
  tag := dbAddressIndex
  serialize := CAddressIndexKey.serialize
  unserialize := CAddressIndexKey.unserialize
  value := .amount
  getValue := DbValue.amount?

def addressUnspentTable : Table CAddressUnspentKey CAddressUnspentValue DbValue where
  tag := dbAddressUnspentIndex
  serialize := CAddressUnspentKey.serialize
  unserialize := CAddressUnspentKey.unserialize
  value := .unspent
  getValue := DbValue.unspent?

theorem lawful_addressIndexTable : addressIndexTable.Lawful CAddressIndexKey.Fits where
  reads _ hk := CAddressIndexKey.reads_unserialize hk
  getValue_value _ := rfl

theorem lawful_addressUnspentTable : addressUnspentTable.Lawful CAddressUnspentKey.Fits where
  reads _ hk := CAddressUnspentKey.reads_unserialize hk
  getValue_value _ := rfl

namespace CBlockTreeDB

/-! ## Writes -/

def writeAddressIndex (db : CBlockTreeDB) (vect : List (CAddressIndexKey × Int)) : CBlockTreeDB :=
  addressIndexTable.writeBatch some db vect

def eraseAddressIndex (db : CBlockTreeDB) (vect : List (CAddressIndexKey × Int)) : CBlockTreeDB :=
  addressIndexTable.writeBatch (fun _ => none) db vect

def updateAddressUnspentIndex (db : CBlockTreeDB)
    (vect : List (CAddressUnspentKey × CAddressUnspentValue)) : CBlockTreeDB :=
  addressUnspentTable.writeBatch (fun value => if value.isNull then none else some value) db vect

/-- The contents the database can have. The other tables of the block tree are written under other
tags. -/
inductive Written : CBlockTreeDB → Prop
  | empty : Written Store.empty
  | writeAddressIndex {db : CBlockTreeDB} (vect : List (CAddressIndexKey × Int)) :
      (∀ row ∈ vect, row.1.Fits) → Written db → Written (db.writeAddressIndex vect)
  | eraseAddressIndex {db : CBlockTreeDB} (vect : List (CAddressIndexKey × Int)) :
      (∀ row ∈ vect, row.1.Fits) → Written db → Written (db.eraseAddressIndex vect)
  | updateAddressUnspentIndex {db : CBlockTreeDB}
      (vect : List (CAddressUnspentKey × CAddressUnspentValue)) :
      (∀ row ∈ vect, row.1.Fits) → Written db → Written (db.updateAddressUnspentIndex vect)
  | write {db : CBlockTreeDB} (key : Slice) (bytes : List UInt8) :
      key.bytes.head? ≠ some dbAddressIndex → key.bytes.head? ≠ some dbAddressUnspentIndex →
      Written db → Written (db.put key (.other bytes))
  | erase {db : CBlockTreeDB} (key : Slice) :
      key.bytes.head? ≠ some dbAddressIndex → key.bytes.head? ≠ some dbAddressUnspentIndex →
      Written db → Written (db.erase key)

variable {db : CBlockTreeDB}

/-- What is under a tag are the rows of its table, whatever was written. -/
theorem Written.holds (h : db.Written) : addressIndexTable.Holds CAddressIndexKey.Fits db ∧
      addressUnspentTable.Holds CAddressUnspentKey.Fits db := by
  have htags : dbAddressIndex ≠ dbAddressUnspentIndex := by decide
  induction h with
  | empty => exact ⟨forall_mem_nil _, forall_mem_nil _⟩
  | writeAddressIndex vect hvect _ ih | eraseAddressIndex vect hvect _ ih =>
    exact ⟨Table.holds_writeBatch _ (fun row hrow _ _ => ⟨_, _, hvect row hrow, rfl⟩) ih.1,
      Table.holds_writeBatch _ (fun _ _ _ h => absurd (Option.some.inj h) htags) ih.2⟩
  | updateAddressUnspentIndex vect hvect _ ih =>
    exact ⟨Table.holds_writeBatch _ (fun _ _ _ h => absurd (Option.some.inj h) htags.symm) ih.1,
      Table.holds_writeBatch _ (fun row hrow _ _ => ⟨_, _, hvect row hrow, rfl⟩) ih.2⟩
  | write key bytes ha hu _ ih =>
    exact ⟨Table.holds_put (fun h => absurd h ha) ih.1, Table.holds_put (fun h => absurd h hu) ih.2⟩
  | erase key _ _ _ ih => exact ⟨Table.holds_erase key ih.1, Table.holds_erase key ih.2⟩

/-- Under the two tags are the rows of the two tables. -/
def Shows (db : CBlockTreeDB) (tables : IndexTables) : Prop :=
  addressIndexTable.Refines CAddressIndexKey.Fits db tables.addressIndex ∧
    addressUnspentTable.Refines CAddressUnspentKey.Fits db tables.addressUnspentIndex

/-- The batches on disk do what the model of the tables in `Index.Rows` says they do, and leave the
other table as it was. -/
theorem refines_indexTables {tables : IndexTables} (h : db.Shows tables)
    (rows : List (CAddressIndexKey × Int)) (hrows : ∀ row ∈ rows, row.1.Fits)
    (unspent : List (CAddressUnspentKey × CAddressUnspentValue))
      (hunspent : ∀ row ∈ unspent, row.1.Fits) :
    (db.writeAddressIndex rows).Shows
        { tables with addressIndex := Chratos.writeAddressIndex rows tables.addressIndex } ∧
      (db.eraseAddressIndex rows).Shows
        { tables with addressIndex := Chratos.eraseAddressIndex rows tables.addressIndex } ∧
      (db.updateAddressUnspentIndex unspent).Shows { tables with
        addressUnspentIndex :=
          Chratos.updateAddressUnspentIndex unspent tables.addressUnspentIndex } := by
  have htags : dbAddressIndex ≠ dbAddressUnspentIndex := by decide
  refine ⟨⟨?_, ?_⟩, ⟨?_, ?_⟩, ?_, ?_⟩
  · exact Table.refines_writeBatch lawful_addressIndexTable _ hrows h.1
  · exact Table.refines_writeBatch_other htags.symm _ _ h.2
  · exact Table.refines_writeBatch lawful_addressIndexTable _ hrows h.1
  · exact Table.refines_writeBatch_other htags.symm _ _ h.2
  · exact Table.refines_writeBatch_other htags _ _ h.1
  · exact Table.refines_writeBatch lawful_addressUnspentTable _ hunspent h.2

/-- A row of each table is there: the first is overwritten or erased, the second is set to null. -/
theorem refines_indexTables_filled :
    let key : CAddressIndexKey := ⟨1, List.replicate 20 0, 7, 0, 5, 0, false⟩
    let out : CAddressUnspentKey := ⟨1, List.replicate 20 0, 5, 0⟩
    let value : CAddressUnspentValue := ⟨9, [0x51], 7⟩
    let tables : IndexTables := ⟨Chratos.writeAddressIndex [(key, 9)] fun _ => none,
      Chratos.updateAddressUnspentIndex [(out, value)] fun _ => none, fun _ => none⟩
    let db := (writeAddressIndex Store.empty [(key, 9)]).updateAddressUnspentIndex [(out, value)]
    let nulled := Chratos.updateAddressUnspentIndex [(out, .null)] tables.addressUnspentIndex
    db.Shows tables ∧ CAddressUnspentValue.null.isNull = true ∧
      (db.writeAddressIndex [(key, 4)]).Shows
        { tables with addressIndex := Chratos.writeAddressIndex [(key, 4)] tables.addressIndex } ∧
      (db.eraseAddressIndex [(key, 4)]).Shows
        { tables with addressIndex := Chratos.eraseAddressIndex [(key, 4)] tables.addressIndex } ∧
      (db.updateAddressUnspentIndex [(out, .null)]).Shows { tables with addressUnspentIndex :=
        nulled } := by
  intro key out value tables db nulled
  have hkey : key.Fits := ⟨by decide, rfl, by decide, by decide, by decide⟩
  have hout : out.Fits := ⟨by decide, rfl, by decide⟩
  have hrow : ∀ n : Int, ∀ row ∈ [(key, n)], row.1.Fits := fun _ => forall_mem_singleton.mpr hkey
  have hunspent : ∀ v : CAddressUnspentValue, ∀ row ∈ [(out, v)], row.1.Fits := fun _ =>
    forall_mem_singleton.mpr hout
  have hempty : Shows Store.empty ⟨fun _ => none, fun _ => none, fun _ => none⟩ :=
    ⟨fun _ _ _ => iff_of_false not_mem_nil nofun, fun _ _ _ => iff_of_false not_mem_nil nofun⟩
  have hfirst := (refines_indexTables hempty _ (hrow 9) _ (hunspent value)).1
  have hfilled := (refines_indexTables hfirst _ (hrow 9) _ (hunspent value)).2.2
  exact ⟨hfilled, rfl, refines_indexTables hfilled _ (hrow 4) _ (hunspent .null)⟩

/-! ## Queries -/

/-- The key an address is sought at. -/
def addressSeek (tag : UInt8) (addressHash : List UInt8) (type : Nat) : Slice :=
  ⟨tag :: CAddressIndexIteratorKey.serialize ⟨type, addressHash⟩⟩

section

variable (db : CBlockTreeDB) (addressHash : List UInt8) (type : Nat)

def readAddressUnspentIndex : Option (List (CAddressUnspentKey × CAddressUnspentValue)) :=
  addressUnspentTable.collect (fun key => key.hashBytes = addressHash)
    (db.seek (addressSeek dbAddressUnspentIndex addressHash type))

def addressIndexSeek (start stop : Int) : Slice :=
  if 0 < start ∧ 0 < stop then
    ⟨dbAddressIndex :: CAddressIndexIteratorHeightKey.serialize ⟨type, addressHash, start.toNat⟩⟩
  else addressSeek dbAddressIndex addressHash type

/-- Both tests of the loop end it: another hash, or a height beyond the last one asked for. -/
def readAddressIndex (start stop : Int) : Option (List (CAddressIndexKey × Int)) :=
  addressIndexTable.collect
    (fun key => key.hashBytes = addressHash ∧ ¬ (0 < stop ∧ stop < key.blockHeight))
    (db.seek (addressIndexSeek addressHash type start stop))

end

end CBlockTreeDB

end Chratos
