import Chratos.Coins.Compress
import Chratos.Coins.Update

/-!
# Chratos — entries and undo records on disk (`coins.h`, `undo.h`)

Two formats carry what `UpdateCoins` needs back: the database record of a `CCoins`, and the
undo record of a spent output. Neither keeps everything.

* A version is a `VARINT`, so a negative one comes back as its low seven bits
  (`storedVersion`).
* Neither format has a place for the coinstake flag (`CCoins.stored`, `CTxInUndo.stored`).
* An undo record without a height has no version either.
* A script beyond the size limit is replaced (`CCoins.restored`).

Everything else returns: `reads_unserTxInUndo`, `reads_unserBlockUndo`, `reads_unserCoins`.
-/

namespace Chratos

open Codec List CTxOut CCoins

/-- What a version is after a round trip. -/
def storedVersion (nVersion : Int) : Int := if 0 ≤ nVersion then nVersion else nVersion % 128

def readVersion : Reader Int := do
  let n ← readVarInt
  pure (n : Int)

theorem reads_readVersion {v : Int} (hv : IsInt32 v) :
    Reads readVersion (writeVarInt v) (storedVersion v) := by
  obtain ⟨-, hlt⟩ := hv
  unfold storedVersion
  split
  · rename_i h0
    have h := (reads_readVarInt h0 (by omega)).map (fun n : Nat => (n : Int))
    rwa [Int.toNat_of_nonneg h0] at h
  · have h := (reads_readVarInt_neg (show v < 0 by omega)).map (fun n : Nat => (n : Int))
    rwa [Int.toNat_of_nonneg (by omega)] at h

/-! ## Undo records -/

/-- Height and coinbase flag in one number. -/
def undoCode (undo : CTxInUndo) : Nat := (undo.nHeight * 2 + if undo.fCoinBase then 1 else 0) % 2 ^ 32

section

variable (keys : PubKeys)

def serTxInUndo (undo : CTxInUndo) : List UInt8 :=
  writeVarInt (undoCode undo) ++ ((if 0 < undo.nHeight then writeVarInt undo.nVersion else []) ++
    serTxOut keys undo.txout)

/-- The version that follows a height, if there is one. -/
def readUndoVersion (nHeight : Nat) : Reader Int :=
  if 0 < nHeight then readVersion else pure 0

def unserTxInUndo : Reader CTxInUndo := do
  let nCode ← readVarInt
  let nVersion ← readUndoVersion (nCode / 2)
  let txout ← unserTxOut keys
  pure { txout := txout, fCoinBase := nCode % 2 = 1, nHeight := nCode / 2, nVersion := nVersion }

def serBlockUndo (undo : CBlockUndo) : List UInt8 :=
  serVector (serVector (serTxInUndo keys)) undo

def unserBlockUndo : Reader CBlockUndo :=
  unserVector (unserVector (unserTxInUndo keys))

/-- What an undo record is after a round trip. -/
def CTxInUndo.stored (undo : CTxInUndo) : CTxInUndo :=
  { undo with nVersion := if 0 < undo.nHeight then storedVersion undo.nVersion else 0 }

/-- A record that can be written. -/
structure CTxInUndo.Storable (undo : CTxInUndo) : Prop where
  txout : undo.txout.Storable
  nHeight_lt : undo.nHeight < 2 ^ 31
  nVersion_int : IsInt32 undo.nVersion

theorem reads_unserTxInUndo {undo : CTxInUndo} (h : undo.Storable) :
    Reads (unserTxInUndo keys) (serTxInUndo keys undo) undo.stored := by
  have hheight := h.nHeight_lt
  have hcode : undoCode undo = undo.nHeight * 2 + if undo.fCoinBase then 1 else 0 := by
    exact Nat.mod_eq_of_lt (by split <;> omega)
  have hdiv : undoCode undo / 2 = undo.nHeight := by
    rw [hcode]
    split <;> omega
  have hmod : decide (undoCode undo % 2 = 1) = undo.fCoinBase := by
    rw [hcode]
    cases undo.fCoinBase <;> simp
  have hread : Reads readVarInt (writeVarInt (undoCode undo)) (undoCode undo) := by
    refine reads_readVarInt (by omega) ?_
    rw [hcode]
    split <;> omega
  have hversion : Reads (readUndoVersion (undoCode undo / 2))
      (if 0 < undo.nHeight then writeVarInt undo.nVersion else []) undo.stored.nVersion := by
    rw [hdiv, CTxInUndo.stored, readUndoVersion]
    split
    · exact reads_readVersion h.nVersion_int
    · exact reads_pure 0
  have hout := (reads_unserTxOut keys h.txout).map (fun txout =>
    ({ txout := txout, fCoinBase := undoCode undo % 2 = 1, nHeight := undoCode undo / 2,
       nVersion := undo.stored.nVersion } : CTxInUndo))
  rw [hmod, hdiv] at hout
  refine hread.bind (hversion.bind ?_)
  rw [hmod, hdiv]
  exact hout

/-- **Undo data round trips**, record by record. -/
theorem reads_unserBlockUndo {undo : CBlockUndo}
    (hlen : undo.length ≤ MAX_SIZE) (hsizes : ∀ txundo ∈ undo, txundo.length ≤ MAX_SIZE)
    (h : ∀ txundo ∈ undo, ∀ u ∈ txundo, u.Storable) :
    Reads (unserBlockUndo keys) (serBlockUndo keys undo) (undo.map (·.map CTxInUndo.stored)) :=
  reads_unserVector hlen fun txundo htx =>
    reads_unserVector (hsizes txundo htx) fun u hu => reads_unserTxInUndo keys (h txundo htx u hu)

end

/-! ## The availability mask

The first two outputs have a bit each in the header; the others share bytes, and the header
says how many bytes that are not zero follow. -/

/-- Up to eight bits, the first one lowest. -/
def maskByte : List Bool → Nat
  | [] => 0
  | f :: fs => (if f then 1 else 0) + 2 * maskByte fs

def byteBits : Nat → Nat → List Bool
  | 0, _ => []
  | k + 1, n => (n % 2 = 1) :: byteBits k (n / 2)

/-- Bits in bytes; `fuel` bounds the number of bytes. -/
def maskBytes : Nat → List Bool → List UInt8
  | 0, _ => []
  | _, [] => []
  | fuel + 1, bits => UInt8.ofNat (maskByte (bits.take 8)) :: maskBytes fuel (bits.drop 8)

/-- The reader's loop: bytes are taken until enough of them were not zero. -/
def readMask (nMaskCode : Nat) : Reader (List UInt8)
  | [] => if nMaskCode = 0 then some ([], []) else none
  | chAvail :: rest =>
    if nMaskCode = 0 then some ([], chAvail :: rest)
    else (readMask (if chAvail ≠ 0 then nMaskCode - 1 else nMaskCode) rest).map
      fun r => (chAvail :: r.1, r.2)

theorem maskByte_lt (bits : List Bool) : maskByte bits < 2 ^ bits.length := by
  induction bits with
  | nil => decide
  | cons f fs ih =>
    rw [maskByte, length_cons, pow_succ]
    split <;> omega

variable {bits : List Bool} {c : CCoins}

theorem byteBits_maskByte {k : Nat} (h : bits.length ≤ k) :
    byteBits k (maskByte bits) = bits ++ List.replicate (k - bits.length) false := by
  induction k generalizing bits with
  | zero =>
    have hnil : bits = [] := length_eq_zero_iff.mp (by omega)
    rw [hnil]
    rfl
  | succ k ih =>
    cases bits with
    | nil =>
      have h0 := ih (show ([] : List Bool).length ≤ k by simp)
      simp only [maskByte, nil_append, length_nil, Nat.sub_zero] at h0
      simp [byteBits, maskByte, h0, replicate_succ]
    | cons f fs =>
      have hfs := ih (show fs.length ≤ k by simpa using h)
      have hbit : decide (((if f then 1 else 0) + 2 * maskByte fs) % 2 = 1) = f := by
        cases f <;> simp
      have hrest : ((if f then 1 else 0) + 2 * maskByte fs) / 2 = maskByte fs := by
        split <;> omega
      rw [maskByte, byteBits, hbit, hrest, hfs]
      simp

theorem length_maskBytes_le (fuel : Nat) (bits : List Bool) :
    (maskBytes fuel bits).length ≤ fuel := by
  induction fuel generalizing bits with
  | zero => exact le_rfl
  | succ fuel ih =>
    cases bits with
    | nil => exact Nat.zero_le _
    | cons f fs => exact Nat.succ_le_succ (ih _)

theorem maskByte_ne_zero (h : true ∈ bits) : maskByte bits ≠ 0 := by
  induction bits with
  | nil => cases h
  | cons f fs ih =>
    rw [maskByte]
    rcases mem_cons.mp h with rfl | hfs
    · simp
    · have := ih hfs
      omega

/-- The byte made of the first bits of a list. -/
theorem toNat_maskByte_take (bits : List Bool) :
    (UInt8.ofNat (maskByte (bits.take 8))).toNat = maskByte (bits.take 8) := by
  have hlt := maskByte_lt (bits.take 8)
  have hlen : (bits.take 8).length ≤ 8 := length_take_le 8 bits
  have hpow : 2 ^ (bits.take 8).length ≤ 2 ^ 8 := Nat.pow_le_pow_right (by decide) hlen
  rw [UInt8.toNat_ofNat', Nat.mod_eq_of_lt (by omega)]

def maskBits (mask : List UInt8) : List Bool := mask.flatMap fun chAvail => byteBits 8 chAvail.toNat

/-- The bits come back, with zeros up to the end of the last byte. -/
theorem maskBits_maskBytes {fuel : Nat} (h : bits.length ≤ 8 * fuel) :
    ∃ r, maskBits (maskBytes fuel bits) = bits ++ List.replicate r false := by
  induction fuel generalizing bits with
  | zero =>
    have hnil : bits = [] := length_eq_zero_iff.mp (by omega)
    exact ⟨0, by rw [hnil]; rfl⟩
  | succ fuel ih =>
    cases hbits : bits with
    | nil => exact ⟨0, rfl⟩
    | cons f fs =>
      rw [← hbits, maskBytes, maskBits, flatMap_cons, toNat_maskByte_take,
        byteBits_maskByte (length_take_le 8 bits), length_take]
      · obtain ⟨r, hr⟩ := ih (show (bits.drop 8).length ≤ 8 * fuel by
          rw [length_drop]
          omega)
        rw [maskBits] at hr
        rw [hr]
        by_cases hlong : 8 ≤ bits.length
        · refine ⟨r, ?_⟩
          rw [Nat.min_eq_left hlong, Nat.sub_self, replicate_zero, append_nil,
            ← append_assoc, take_append_drop]
        · -- The last byte: the padding is its own and that of the empty rest.
          have htake : bits.take 8 = bits := take_of_length_le (by omega)
          have hdrop : bits.drop 8 = [] := drop_eq_nil_of_le (by omega)
          refine ⟨8 - bits.length + r, ?_⟩
          rw [htake, hdrop, Nat.min_eq_right (by omega), nil_append, append_assoc,
            replicate_append_replicate]
      · rw [hbits]
        exact cons_ne_nil f fs

/-- When the last bit is set, so is one of the last byte. -/
theorem maskBytes_getLast {fuel : Nat} (h : bits.length ≤ 8 * fuel)
    (hlast : bits.getLast? = some true) :
    ∃ chAvail, (maskBytes fuel bits).getLast? = some chAvail ∧ chAvail ≠ 0 := by
  induction fuel generalizing bits with
  | zero =>
    have hnil : bits = [] := length_eq_zero_iff.mp (by omega)
    rw [hnil] at hlast
    cases hlast
  | succ fuel ih =>
    have hne : bits ≠ [] := by
      intro hnil
      rw [hnil] at hlast
      cases hlast
    rw [maskBytes]
    · by_cases hdrop : bits.drop 8 = []
      · -- All bits are in this byte.
        have htake : bits.take 8 = bits := by
          have := take_append_drop 8 bits
          rwa [hdrop, append_nil] at this
        have hbyte := maskByte_ne_zero (mem_of_getLast? hlast)
        refine ⟨UInt8.ofNat (maskByte (bits.take 8)), ?_, ?_⟩
        · rw [hdrop]
          cases fuel <;> rfl
        · intro hzero
          have := congrArg UInt8.toNat hzero
          rw [toNat_maskByte_take, htake] at this
          exact hbyte this
      · have hrest : (bits.drop 8).getLast? = some true := by
          rw [← hlast]
          conv_rhs => rw [← take_append_drop 8 bits]
          rw [getLast?_append_of_ne_nil _ hdrop]
        obtain ⟨chAvail, hget, hnz⟩ := ih (show (bits.drop 8).length ≤ 8 * fuel by
          rw [length_drop]
          omega) hrest
        refine ⟨chAvail, ?_, hnz⟩
        rw [getLast?_cons, hget]
        rfl
    · exact hne

/-- A mask that does not end in a zero byte is read to its end. -/
theorem reads_readMask {mask : List UInt8}
    (hlast : ∀ chAvail, mask.getLast? = some chAvail → chAvail ≠ 0) :
    Reads (readMask (mask.countP (· ≠ 0))) mask mask := by
  induction mask with
  | nil =>
    intro rest
    cases rest <;> rfl
  | cons b bs ih =>
    intro rest
    have hbs : ∀ chAvail, bs.getLast? = some chAvail → chAvail ≠ 0 := by
      intro chAvail hget
      refine hlast chAvail ?_
      rw [getLast?_cons, hget]
      rfl
    have hread := ih hbs rest
    -- Some byte is not zero, so the loop goes on.
    have hpos : (b :: bs).countP (· ≠ 0) ≠ 0 := by
      obtain ⟨chAvail, hget⟩ : ∃ chAvail, (b :: bs).getLast? = some chAvail := by
        exact ⟨_, rfl⟩
      have hmem := mem_of_getLast? hget
      have hnz := hlast chAvail hget
      exact (countP_pos_iff.mpr ⟨chAvail, hmem, by simpa using hnz⟩).ne'
    have hcount : (if b ≠ 0 then (b :: bs).countP (· ≠ 0) - 1 else (b :: bs).countP (· ≠ 0)) =
        bs.countP (· ≠ 0) := by
      by_cases hb : b = 0 <;> simp [hb]
    rw [cons_append, readMask, if_neg hpos, hcount, hread]
    rfl

/-! ## Entries -/

/-- The mask of an entry, up to the last byte in use. -/
def CCoins.mask (c : CCoins) : List UInt8 :=
  (maskBytes c.vout.length ((c.vout.drop 2).map (!·.isNull))).rdropWhile (· = 0)

/-- Number of mask bytes, coinbase flag and the first two outputs in one number. -/
def CCoins.headerCode (c : CCoins) : Nat :=
  8 * (c.mask.countP (· ≠ 0) - if c.isAvailable 0 || c.isAvailable 1 then 0 else 1) +
    c.fCoinBase.toNat + 2 * (c.isAvailable 0).toNat + 4 * (c.isAvailable 1).toNat

section

variable (keys : PubKeys) (c : CCoins)

def serCoins : List UInt8 :=
  writeVarInt c.nVersion ++ (writeVarInt c.headerCode ++ (c.mask ++
    ((c.vout.filter (!·.isNull)).flatMap (serTxOut keys) ++ writeVarInt c.nHeight)))

/-- Outputs where the mask says so, nulls elsewhere. -/
def readOuts : List Bool → Reader (List CTxOut)
  | [] => pure []
  | false :: vAvail => do
    let outs ← readOuts vAvail
    pure (null :: outs)
  | true :: vAvail => do
    let o ← unserTxOut keys
    let outs ← readOuts vAvail
    pure (o :: outs)

def unserCoins : Reader CCoins := do
  let nVersion ← readVersion
  let nCode ← readVarInt
  let mask ← readMask (nCode / 8 + if nCode / 2 % 4 ≠ 0 then 0 else 1)
  let vout ← readOuts keys ((nCode / 2 % 2 = 1) :: (nCode / 4 % 2 = 1) :: maskBits mask)
  let nHeight ← readVarInt
  pure (cleanup
    { fCoinBase := nCode % 2 = 1, vout := vout, nHeight := nHeight, nVersion := nVersion })

/-- What an entry is after a round trip. -/
def CCoins.stored : CCoins :=
  { c with fCoinStake := false, nVersion := storedVersion c.nVersion }

/-- An entry that can be written: unspent, cleaned up, and with outputs as transactions have
them. -/
structure CCoins.Storable : Prop where
  unspent : c.vout ≠ []
  clean : c.cleanup = c
  outs : ∀ o ∈ c.vout, o = null ∨ o.Storable
  length_le : c.vout.length ≤ MAX_SIZE
  nHeight_lt : c.nHeight < 2 ^ 31
  nVersion_int : IsInt32 c.nVersion

/-- And one whose numbers fit 32 bits, whatever its scripts. From this size on the header code would
wrap. -/
structure CCoins.Writable : Prop where
  unspent : c.vout ≠ []
  clean : c.cleanup = c
  outs : ∀ o ∈ c.vout, o = null ∨ o.Writable
  length_le : c.vout.length ≤ 2 ^ 32 - 6
  nHeight_lt : c.nHeight < 2 ^ 31
  nVersion_int : IsInt32 c.nVersion

/-- What such an entry is after a round trip. -/
def CCoins.restored : CCoins :=
  { c.stored with vout := c.vout.map CTxOut.restored }

end

theorem CCoins.Storable.writable (h : c.Storable) : c.Writable where
  unspent := h.unspent
  clean := h.clean
  outs := fun o ho => (h.outs o ho).imp_right CTxOut.Storable.writable
  length_le := le_trans h.length_le (by decide)
  nHeight_lt := h.nHeight_lt
  nVersion_int := h.nVersion_int

theorem CCoins.Storable.restored_eq (h : c.Storable) : c.restored = c.stored := by
  have hvout : c.vout.map CTxOut.restored = c.vout := by
    refine (map_congr_left fun o ho => ?_).trans (map_id _)
    rcases h.outs o ho with rfl | hout
    · rfl
    · exact restored_eq_self.mpr hout.2
  unfold restored
  rw [hvout]
  rfl

/-- Nulls at the end are cleaned up. -/
theorem rdropWhile_append_replicate_null (vout : List CTxOut) (r : Nat) :
    (vout ++ List.replicate r null).rdropWhile isNull = vout.rdropWhile isNull := by
  induction r with
  | zero => rw [replicate_zero, append_nil]
  | succ r ih =>
    rw [replicate_succ', ← append_assoc, rdropWhile_concat_pos _ _ _ isNull_null, ih]

theorem reads_readOuts (keys : PubKeys) {outs : List CTxOut}
    (h : ∀ o ∈ outs, o = null ∨ o.Writable) (r : Nat) :
    Reads (readOuts keys (outs.map (!·.isNull) ++ List.replicate r false))
      ((outs.filter (!·.isNull)).flatMap (serTxOut keys))
      (outs.map CTxOut.restored ++ List.replicate r null) := by
  induction outs with
  | nil =>
    induction r with
    | zero => exact reads_pure []
    | succ r ih => exact ih.map (null :: ·)
  | cons o outs ih =>
    have hrest := ih fun o ho => h o (mem_cons_of_mem _ ho)
    rcases h o (by simp) with rfl | ho
    · exact hrest.map (null :: ·)
    · have hnull : o.isNull = false := not_isNull_of_moneyRange ho.1
      rw [map_cons, hnull, filter_cons_of_pos (by simp [hnull]), flatMap_cons]
      exact (reads_unserTxOut_restored keys ho).bind (hrest.map (o.restored :: ·))

theorem CCoins.headerCode_lt (c : CCoins) : c.headerCode < 8 * c.vout.length + 8 := by
  have hcount : c.mask.countP (· ≠ 0) ≤ c.vout.length := by
    calc c.mask.countP (· ≠ 0) ≤ c.mask.length := countP_le_length
      _ ≤ (maskBytes c.vout.length ((c.vout.drop 2).map (!·.isNull))).length :=
          (List.rdropWhile_prefix _ _).length_le
      _ ≤ c.vout.length := length_maskBytes_le _ _
  have hcb := Bool.toNat_le c.fCoinBase
  have hfirst := Bool.toNat_le (c.isAvailable 0)
  have hsecond := Bool.toNat_le (c.isAvailable 1)
  unfold headerCode
  omega

theorem CCoins.mask_getLast (c : CCoins) : ∀ chAvail, c.mask.getLast? = some chAvail → chAvail ≠ 0 := by
  intro chAvail hget
  have hne : c.mask ≠ [] := by
    intro hnil
    rw [hnil] at hget
    cases hget
  have hlast := rdropWhile_last_not _ _ hne
  rw [getLast?_eq_some_getLast hne] at hget
  injection hget with hget
  rw [decide_eq_true_eq] at hlast
  rw [← hget]
  exact hlast

namespace CCoins.Writable

variable {c : CCoins} (h : c.Writable)

include h

/-- The last output is unspent. -/
theorem getLast_isNull : (c.vout.getLast h.unspent).isNull = false := by
  have hclean : c.vout.rdropWhile isNull = c.vout := congrArg vout h.clean
  have := (rdropWhile_eq_self_iff.mp hclean) h.unspent
  simpa using this

/-- The mask stands for the outputs past the second. -/
theorem maskBits_mask :
    ∃ r, maskBits c.mask = (c.vout.drop 2).map (!·.isNull) ++ List.replicate r false := by
  have hlen : ((c.vout.drop 2).map (!·.isNull)).length ≤ 8 * c.vout.length := by
    rw [length_map, length_drop]
    omega
  by_cases hdrop : c.vout.drop 2 = []
  · refine ⟨0, ?_⟩
    rw [mask, hdrop]
    cases c.vout.length <;> rfl
  · -- The last bit is set, so no byte is left out.
    have hlast : ((c.vout.drop 2).map (!·.isNull)).getLast? = some true := by
      have hget : (c.vout.drop 2).getLast? = some (c.vout.getLast h.unspent) := by
        rw [← getLast?_eq_some_getLast h.unspent]
        conv_rhs => rw [← take_append_drop 2 c.vout]
        rw [getLast?_append_of_ne_nil _ hdrop]
      rw [getLast?_map, hget, Option.map_some, h.getLast_isNull]
      rfl
    obtain ⟨chAvail, hbyte, hnz⟩ := maskBytes_getLast hlen hlast
    have hmask : c.mask = maskBytes c.vout.length ((c.vout.drop 2).map (!·.isNull)) := by
      rw [mask, rdropWhile_eq_self_iff]
      intro hne
      rw [getLast?_eq_some_getLast hne] at hbyte
      injection hbyte with hbyte
      rw [hbyte, decide_eq_true_eq]
      exact hnz
    rw [hmask]
    exact maskBits_maskBytes hlen

/-- All availability bits, with zeros behind them. -/
theorem avail_eq : ∃ r, c.isAvailable 0 :: c.isAvailable 1 :: maskBits c.mask =
    c.vout.map (!·.isNull) ++ List.replicate r false := by
  obtain ⟨r, hr⟩ := h.maskBits_mask
  rw [hr]
  cases hvout : c.vout with
  | nil => exact absurd hvout h.unspent
  | cons o outs =>
    cases outs with
    | nil => exact ⟨r + 1, by simp [isAvailable, hvout, replicate_succ]⟩
    | cons o' outs => exact ⟨r, by simp [isAvailable, hvout]⟩

/-- Some output is unspent, so the header or the mask shows it. -/
theorem available_or_mask :
    c.isAvailable 0 = true ∨ c.isAvailable 1 = true ∨ 0 < c.mask.countP (· ≠ 0) := by
  by_cases hmask : c.mask = []
  · -- Without a mask there are at most two outputs, and the last one is unspent.
    obtain ⟨r, hr⟩ := h.avail_eq
    have hmem : true ∈ c.vout.map (!·.isNull) ++ replicate r false := by
      refine mem_append_left _ (mem_map.mpr ⟨_, getLast_mem h.unspent, ?_⟩)
      rw [h.getLast_isNull]
      rfl
    rw [← hr, hmask, maskBits, flatMap_nil, mem_cons, mem_cons] at hmem
    rcases hmem with hfirst | hsecond | hnil
    · exact .inl hfirst.symm
    · exact .inr (.inl hsecond.symm)
    · cases hnil
  · refine .inr (.inr (countP_pos_iff.mpr ⟨c.mask.getLast hmask, getLast_mem _, ?_⟩))
    have := c.mask_getLast _ (getLast?_eq_some_getLast hmask)
    simpa using this

/-- The header is read back. -/
theorem headerCode_spec : decide (c.headerCode % 2 = 1) = c.fCoinBase ∧
      decide (c.headerCode / 2 % 2 = 1) = c.isAvailable 0 ∧
      decide (c.headerCode / 4 % 2 = 1) = c.isAvailable 1 ∧
      (c.headerCode / 8 + if c.headerCode / 2 % 4 ≠ 0 then 0 else 1) = c.mask.countP (· ≠ 0) := by
  have hsome := h.available_or_mask
  have hcb := Bool.toNat_le c.fCoinBase
  have hfirst := Bool.toNat_le (c.isAvailable 0)
  have hsecond := Bool.toNat_le (c.isAvailable 1)
  have hbit : ∀ f : Bool, decide (f.toNat = 1) = f := fun f => by cases f <;> rfl
  -- The four parts of the number, by place value.
  have hparts : c.headerCode % 2 = c.fCoinBase.toNat ∧
      c.headerCode / 2 % 2 = (c.isAvailable 0).toNat ∧
      c.headerCode / 4 % 2 = (c.isAvailable 1).toNat ∧
      c.headerCode / 2 % 4 = (c.isAvailable 0).toNat + 2 * (c.isAvailable 1).toNat ∧
      c.headerCode / 8 =
        c.mask.countP (· ≠ 0) - if c.isAvailable 0 || c.isAvailable 1 then 0 else 1 := by
    unfold headerCode
    omega
  obtain ⟨h0, h1, h2, h12, h8⟩ := hparts
  rw [h0, h1, h2, hbit, hbit, hbit, h12, h8]
  refine ⟨rfl, rfl, rfl, ?_⟩
  cases hf : c.isAvailable 0 with
  | true => simp
  | false =>
    cases hs : c.isAvailable 1 with
    | true => simp
    | false =>
      have hpos : 0 < c.mask.countP (· ≠ 0) := by simpa [hf, hs] using hsome
      show c.mask.countP (· ≠ 0) - 1 + 1 = c.mask.countP (· ≠ 0)
      omega

end CCoins.Writable

/-- What is written for an entry is read to its end. -/
theorem reads_unserCoins_restored (keys : PubKeys) (h : c.Writable) :
    Reads (unserCoins keys) (serCoins keys c) c.restored := by
  obtain ⟨hcb, hfirst, hsecond, hcount⟩ := h.headerCode_spec
  obtain ⟨r, hr⟩ := h.avail_eq
  have hcode : Reads readVarInt (writeVarInt c.headerCode) c.headerCode := by
    have hlt := c.headerCode_lt
    have hlen := h.length_le
    exact reads_readVarInt (by omega) (by omega)
  have hheight : Reads readVarInt (writeVarInt c.nHeight) c.nHeight := by
    have := h.nHeight_lt
    exact reads_readVarInt (by omega) (by omega)
  have hmask := reads_readMask c.mask_getLast
  have houts := reads_readOuts keys h.outs r
  rw [← hcount] at hmask
  rw [← hr, ← hfirst, ← hsecond] at houts
  refine (reads_readVersion h.nVersion_int).bind (hcode.bind (hmask.bind (houts.bind ?_)))
  have hdone := hheight.map (fun nHeight => cleanup
    { fCoinBase := c.headerCode % 2 = 1,
      vout := c.vout.map CTxOut.restored ++ replicate r null,
      nHeight := nHeight, nVersion := storedVersion c.nVersion })
  have hstored : cleanup
      { fCoinBase := c.headerCode % 2 = 1,
        vout := c.vout.map CTxOut.restored ++ replicate r null,
        nHeight := c.nHeight, nVersion := storedVersion c.nVersion } = c.restored := by
    -- the last output is as unspent as before
    have hclean : (c.vout.map CTxOut.restored).rdropWhile isNull = c.vout.map CTxOut.restored := by
      rw [rdropWhile_eq_self_iff]
      intro hne
      rw [getLast_map]
      show ¬ (c.vout.getLast _).isNull = true
      rw [h.getLast_isNull]
      exact Bool.false_ne_true
    rw [cleanup, rdropWhile_append_replicate_null, hclean, hcb]
    rfl
  rw [hstored] at hdone
  exact hdone

/-- **Entries round trip**, but for the coinstake flag and a negative version. -/
theorem reads_unserCoins (keys : PubKeys) (h : c.Storable) :
    Reads (unserCoins keys) (serCoins keys c) c.stored := by
  rw [← h.restored_eq]
  exact reads_unserCoins_restored keys h.writable

end Chratos
