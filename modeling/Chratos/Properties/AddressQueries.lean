import Chratos.Index.Database

/-!
# Chratos — what the queries of the address indexes return

A query seeks the address it is asked for and stops at the first row of another hash. It does not
look at the type of the address. The rows of one hash under one type lie together, and those of the
same hash under the next type lie behind them, with the rows of all the addresses between. Where
there is no such row, the query goes on into the rows of the other address.
-/

namespace Chratos

open Codec KeyStore CBlockTreeDB List

variable {addressHash : List UInt8} {type : Nat} {start stop : Int}

/-- The rows a query of the unspent index asks for. -/
def unspentAsked (addressHash : List UInt8) (type : Nat) (key : CAddressUnspentKey) : Bool :=
  key.type = type ∧ key.hashBytes = addressHash

/-- The rows a query of the address index asks for: those of the address, between the heights if
there are any. -/
def addressAsked (addressHash : List UInt8) (type : Nat) (start stop : Int)
    (key : CAddressIndexKey) : Bool :=
  key.type = type ∧ key.hashBytes = addressHash ∧
    (0 < start → 0 < stop → start ≤ key.blockHeight ∧ key.blockHeight ≤ stop)

/-! ## Keys of an address -/

/-- The bytes that the keys of an address begin with. -/
def addressFront (tag : UInt8) (addressHash : List UInt8) (type : Nat) : List UInt8 :=
  tag :: UInt8.ofNat type :: addressHash

theorem addressSeek_eq (tag : UInt8) (addressHash : List UInt8) (type : Nat) :
    addressSeek tag addressHash type = ⟨addressFront tag addressHash type⟩ := rfl

section

variable {tag : UInt8} {hashBytes tail tail' : List UInt8} {type' : Nat}

theorem addressFront_inj (htype : type < 256) (htype' : type' < 256)
    (h : addressFront tag addressHash type = addressFront tag hashBytes type') :
    type = type' ∧ addressHash = hashBytes := by
  obtain ⟨-, hbyte, hhash⟩ : tag = tag ∧ UInt8.ofNat type = UInt8.ofNat type' ∧
    addressHash = hashBytes := by
    simpa [addressFront] using h
  refine ⟨?_, hhash⟩
  have hnat := congrArg UInt8.toNat hbyte
  rwa [UInt8.toNat_ofNat_of_lt' htype, UInt8.toNat_ofNat_of_lt' htype'] at hnat

/-- From the address on and before a row of the address, all rows are of the address. -/
theorem address_of_between (htype : type < 256) (htype' : type' < 256)
    (hlen : addressHash.length = hashBytes.length)
    (hle : addressSeek tag addressHash type ≤ ⟨addressFront tag hashBytes type' ++ tail⟩)
    (hlt : (⟨addressFront tag hashBytes type' ++ tail⟩ : Slice) <
      ⟨addressFront tag addressHash type ++ tail'⟩) : type = type' ∧ addressHash = hashBytes := by
  obtain ⟨rest, hrest⟩ := Slice.front_of_between (addressSeek_eq tag addressHash type ▸ hle) hlt
  apply addressFront_inj htype htype'
  exact (append_inj hrest (by simp [addressFront, hlen])).1

end

/-- What follows the height in a key of the address index. -/
def heightTail (key : CAddressIndexKey) : List UInt8 :=
  serWritedata32be key.txindex ++ (serUint256 key.txhash ++ (leBytes 4 key.index ++
    [if key.spending then 1 else 0]))

theorem address_slice (key : CAddressIndexKey) :
    addressIndexTable.slice key = ⟨addressFront dbAddressIndex key.hashBytes key.type ++
      (serWritedata32be key.blockHeight ++ heightTail key)⟩ := rfl

/-! ## The unspent index -/

section

variable {db : CBlockTreeDB}

theorem readAddressUnspentIndex_exact_iff (hdb : db.Written) (htype : type < 256)
    (hhash : addressHash.length = 20) : db.readAddressUnspentIndex addressHash type =
        some ((addressUnspentTable.rows db).filter fun row => unspentAsked addressHash type row.1) ↔
      ∀ row, addressUnspentTable.next? db (addressSeek dbAddressUnspentIndex addressHash type)
        (unspentAsked addressHash type) = some row → row.1.hashBytes ≠ addressHash := by
  unfold readAddressUnspentIndex
  rw [Table.query_eq_filter_iff lawful_addressUnspentTable hdb.holds.2]
  · simp only [decide_eq_false_iff_not, ne_eq]
  · exact Slice.le_append [dbAddressUnspentIndex] _
  · intro key _ hasked
    obtain ⟨rfl, rfl⟩ := of_decide_eq_true hasked
    exact Slice.le_append _ _
  · intro a b ha hb hle hlt hasked
    obtain ⟨rfl, rfl⟩ := of_decide_eq_true hasked
    obtain ⟨htype', hhash'⟩ := address_of_between htype ha.type (hhash.trans ha.hashBytes.symm) hle hlt
    exact decide_eq_true ⟨htype'.symm, hhash'.symm⟩
  · intro key hasked
    exact decide_eq_true (of_decide_eq_true hasked).2

/-! ## The address index -/

theorem addressIndexSeek_of_pos (hstart : 0 < start) (hstop : 0 < stop) :
    addressIndexSeek addressHash type start stop =
      ⟨addressFront dbAddressIndex addressHash type ++ serWritedata32be start.toNat⟩ := by
  unfold addressIndexSeek
  rw [if_pos ⟨hstart, hstop⟩]
  rfl

theorem addressIndexSeek_of_zero (stop : Int) :
    addressIndexSeek addressHash type 0 stop = addressSeek dbAddressIndex addressHash type := by
  unfold addressIndexSeek
  rw [if_neg fun h => lt_irrefl 0 h.1]

/-- A seek with a height is behind one without. -/
theorem addressSeek_le (start stop : Int) :
    addressSeek dbAddressIndex addressHash type ≤ addressIndexSeek addressHash type start stop := by
  unfold addressIndexSeek
  split
  · exact Slice.le_append _ _
  · exact le_rfl

/-- Behind the height that is sought are the rows from that height on. -/
theorem seekHeight_le_iff {n : Nat} (hn : n < 2 ^ 31) {key : CAddressIndexKey} (hkey : key.Fits) :
    (⟨serWritedata32be n⟩ : Slice) ≤ ⟨serWritedata32be key.blockHeight ++ heightTail key⟩ ↔
      n ≤ key.blockHeight := by
  have hlen : (serWritedata32be key.blockHeight).length = (serWritedata32be n).length := by
    simp [serWritedata32be]
  have hlt := @Slice.append_lt_iff _ _ (heightTail key) [] hlen
  rw [append_nil] at hlt
  have hbytes : ¬ (⟨heightTail key⟩ : Slice) < ⟨[]⟩ := not_lt.mpr (Slice.nil_le _)
  rw [← not_lt, hlt,
    serWritedata32be_lt_iff (lt_trans hkey.blockHeight (by decide)) (lt_trans hn (by decide))]
  simp [hbytes]

/-- The rows of an address are in the order of the heights. -/
theorem height_le_of_lt {a b : CAddressIndexKey} (ha : a.Fits) (hb : b.Fits)
    (hlt : (⟨serWritedata32be a.blockHeight ++ heightTail a⟩ : Slice) <
      ⟨serWritedata32be b.blockHeight ++ heightTail b⟩) : a.blockHeight ≤ b.blockHeight := by
  have hlen : (serWritedata32be b.blockHeight).length = (serWritedata32be a.blockHeight).length := by
    simp [serWritedata32be]
  by_contra h
  have hback := (@Slice.append_lt_iff _ _ (heightTail b) (heightTail a) hlen).mpr
    (.inl ((serWritedata32be_lt_iff (lt_trans hb.blockHeight (by decide))
      (lt_trans ha.blockHeight (by decide))).mpr (not_le.mp h)))
  exact lt_asymm hlt hback

theorem readAddressIndex_exact_iff (hdb : db.Written) (htype : type < 256)
    (hhash : addressHash.length = 20) (hstart : start < 2 ^ 31)
    (hrange : start = 0 ∧ stop = 0 ∨ 0 < start ∧ 0 < stop) :
    db.readAddressIndex addressHash type start stop =
        some ((addressIndexTable.rows db).filter fun row =>
          addressAsked addressHash type start stop row.1) ↔
      ∀ row, addressIndexTable.next? db (addressIndexSeek addressHash type start stop)
          (addressAsked addressHash type start stop) = some row →
        row.1.hashBytes = addressHash → 0 < stop ∧ stop < row.1.blockHeight := by
  unfold readAddressIndex
  rw [Table.query_eq_filter_iff lawful_addressIndexTable hdb.holds.1]
  · refine forall₂_congr fun row _ => ?_
    rw [decide_eq_false_iff_not]
    tauto
  · exact (Slice.le_append [dbAddressIndex] _).trans (addressSeek_le start stop)
  · intro key hkey hasked
    obtain ⟨rfl, rfl, hheight⟩ := of_decide_eq_true hasked
    rw [address_slice]
    rcases hrange with ⟨rfl, -⟩ | ⟨hpos, hstop⟩
    · rw [addressIndexSeek_of_zero]
      exact Slice.le_append _ _
    · rw [addressIndexSeek_of_pos hpos hstop, Slice.append_le_self_iff,
        seekHeight_le_iff (by omega) hkey]
      omega
  · intro a b ha hb hle hlt hasked
    obtain ⟨rfl, rfl, hheight⟩ := of_decide_eq_true hasked
    rw [address_slice] at hle
    rw [address_slice, address_slice] at hlt
    obtain ⟨htype', hhash'⟩ := address_of_between htype ha.type (hhash.trans ha.hashBytes.symm)
      ((addressSeek_le start stop).trans hle) hlt
    refine decide_eq_true ⟨htype'.symm, hhash'.symm, fun hpos hstop => ?_⟩
    rw [htype', hhash', Slice.append_lt_self_iff] at hlt
    rw [addressIndexSeek_of_pos hpos hstop, htype', hhash', Slice.append_le_self_iff,
      seekHeight_le_iff (by omega) ha] at hle
    have hup := height_le_of_lt ha hb hlt
    omega
  · intro key hasked
    obtain ⟨-, hhash', hheight⟩ := of_decide_eq_true hasked
    refine decide_eq_true ⟨hhash', fun hbeyond => ?_⟩
    rcases hrange with ⟨-, rfl⟩ | ⟨hpos, hstop⟩
    · exact lt_irrefl 0 hbeyond.1
    · exact absurd (hheight hpos hstop).2 (not_le.mpr hbeyond.2)

/-- **The queries** of an address return its rows and no others just when the next row of the index
is of another hash, or beyond the last height asked for. -/
theorem addressQueries_exact_iff (hdb : db.Written) (htype : type < 256)
    (hhash : addressHash.length = 20) :
    (db.readAddressUnspentIndex addressHash type =
        some ((addressUnspentTable.rows db).filter fun row => unspentAsked addressHash type row.1) ↔
      ∀ row, addressUnspentTable.next? db (addressSeek dbAddressUnspentIndex addressHash type)
        (unspentAsked addressHash type) = some row → row.1.hashBytes ≠ addressHash) ∧
    ∀ start stop : Int, start < 2 ^ 31 → (start = 0 ∧ stop = 0 ∨ 0 < start ∧ 0 < stop) →
      (db.readAddressIndex addressHash type start stop =
          some ((addressIndexTable.rows db).filter fun row =>
            addressAsked addressHash type start stop row.1) ↔
        ∀ row, addressIndexTable.next? db (addressIndexSeek addressHash type start stop)
            (addressAsked addressHash type start stop) = some row →
          row.1.hashBytes = addressHash → 0 < stop ∧ stop < row.1.blockHeight) :=
  ⟨readAddressUnspentIndex_exact_iff hdb htype hhash,
    fun _ _ hstart hrange => readAddressIndex_exact_iff hdb htype hhash hstart hrange⟩

end

/-! ## One hash under two types -/

def sharedHash : List UInt8 := List.replicate 20 7

/-- An output to the key hash at height 3 and one to the script hash of the same bytes at height 5. -/
def sharedRows : List (CAddressIndexKey × Int) :=
  [(⟨1, sharedHash, 3, 1, 11, 0, false⟩, 40), (⟨2, sharedHash, 5, 1, 12, 0, false⟩, 60)]

def sharedUnspentRows : List (CAddressUnspentKey × CAddressUnspentValue) :=
  [(⟨1, sharedHash, 11, 0⟩, ⟨40, [], 3⟩), (⟨2, sharedHash, 12, 0⟩, ⟨60, [], 5⟩)]

def sharedDb : CBlockTreeDB :=
  (CBlockTreeDB.writeAddressIndex Store.empty sharedRows).updateAddressUnspentIndex sharedUnspentRows

theorem written_sharedDb : sharedDb.Written := by
  refine .updateAddressUnspentIndex _ ?_ (.writeAddressIndex _ ?_ .empty)
  · intro row hrow
    rcases mem_pair.mp hrow with rfl | rfl
    · exact ⟨by decide, rfl, by decide⟩
    · exact ⟨by decide, rfl, by decide⟩
  · intro row hrow
    rcases mem_pair.mp hrow with rfl | rfl
    · exact ⟨by decide, rfl, by decide, by decide, by decide⟩
    · exact ⟨by decide, rfl, by decide, by decide, by decide⟩

/-- A query up to height 4 is exact, since the next row is at height 5. -/
theorem addressQueries_sharedDb :
    sharedDb.Written ∧ sharedDb.readAddressIndex sharedHash 1 1 4 = some (sharedRows.take 1) := by
  have hnext : addressIndexTable.next? sharedDb (addressIndexSeek sharedHash 1 1 4)
      (addressAsked sharedHash 1 1 4) = some (⟨2, sharedHash, 5, 1, 12, 0, false⟩, 60) := by
    decide +kernel
  have hexact :=
    ((addressQueries_exact_iff written_sharedDb (show 1 < 256 by decide)
      (rfl : sharedHash.length = 20)).2 1 4 (by decide)
    (.inr ⟨by decide, by decide⟩)).mpr fun row hrow _ => by
      cases hnext.symm.trans hrow
      decide
  refine ⟨written_sharedDb, hexact.trans ?_⟩
  decide +kernel

/-- Both queries for the key hash return the output to the script hash too. -/
theorem sharedDb_returns_other_type : sharedDb.Written ∧
      (sharedDb.readAddressUnspentIndex sharedHash 1 = some sharedUnspentRows ∧
        (addressUnspentTable.rows sharedDb).filter (fun row => unspentAsked sharedHash 1 row.1) =
          sharedUnspentRows.take 1) ∧ sharedDb.readAddressIndex sharedHash 1 0 0 = some sharedRows ∧
        (addressIndexTable.rows sharedDb).filter (fun row => addressAsked sharedHash 1 0 0 row.1) =
          sharedRows.take 1 :=
  ⟨written_sharedDb, by decide +kernel⟩

end Chratos
