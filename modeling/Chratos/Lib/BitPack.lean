import Mathlib.Data.Nat.Bitwise

/-!
# BitPack — bits packed into bytes

Eight bits to a byte, the first one lowest. The writer starts from zero bytes and sets one bit after the
other; the reader takes all bits of all bytes, so what it reads is what was written and zeros up to the
end of the last byte (`unpackBits_packBits`).
-/

namespace BitPack

open List

/-- Bit `j` of a byte. -/
def bitOf (b : UInt8) (j : Nat) : Bool := b &&& 1 <<< UInt8.ofNat j ≠ 0

variable (bits : List Bool)

/-- One round of the writer. -/
def setBit (bytes : List UInt8) (p : Nat) : List UInt8 :=
  bytes.modify (p / 8) fun b => b ||| if bits.getD p false then 1 <<< UInt8.ofNat (p % 8) else 0

def packBits : List UInt8 :=
  (List.range bits.length).foldl (setBit bits) (List.replicate ((bits.length + 7) / 8) 0)

def unpackBits (bytes : List UInt8) : List Bool :=
  (List.range (bytes.length * 8)).map fun p => bitOf (bytes.getD (p / 8) 0) (p % 8)

variable {j i : Nat} {b : UInt8}

theorem toNat_shiftLeft_one (hj : j < 8) : ((1 : UInt8) <<< UInt8.ofNat j).toNat = 2 ^ j := by
  match j, hj with
  | 0, _ | 1, _ | 2, _ | 3, _ | 4, _ | 5, _ | 6, _ | 7, _ => rfl

theorem bitOf_eq (hj : j < 8) : bitOf b j = b.toNat.testBit j := by
  rw [bitOf, Bool.eq_iff_iff, decide_eq_true_eq, ne_eq, ← UInt8.toNat_inj, UInt8.toNat_and,
    toNat_shiftLeft_one hj, Nat.and_two_pow]
  cases b.toNat.testBit j <;> simp

theorem bitOf_or (hi : i < 8) (hj : j < 8) (c : Bool) :
    bitOf (b ||| if c then 1 <<< UInt8.ofNat j else 0) i = (bitOf b i || (c && i == j)) := by
  rw [bitOf_eq hi, bitOf_eq hi, UInt8.toNat_or, Nat.testBit_or]
  congr 1
  cases c with
  | false => simp
  | true =>
    rw [if_pos rfl, toNat_shiftLeft_one hj, Nat.testBit_two_pow, Bool.true_and, Bool.eq_iff_iff,
      decide_eq_true_eq, beq_iff_eq]
    exact eq_comm

theorem length_setBits (bytes : List UInt8) (m : Nat) :
    ((List.range m).foldl (setBit bits) bytes).length = bytes.length := by
  induction m with
  | zero => rfl
  | succ m ih => rw [range_succ, foldl_append, foldl_cons, foldl_nil, setBit, length_modify, ih]

theorem length_packBits : (packBits bits).length = (bits.length + 7) / 8 := by
  rw [packBits, length_setBits, length_replicate]

/-- After `m` rounds the first `m` bits are set. -/
theorem bitOf_setBits (m k : Nat) (hi : i < 8) (hk : k < (bits.length + 7) / 8) :
    bitOf (((List.range m).foldl (setBit bits)
      (List.replicate ((bits.length + 7) / 8) 0)).getD k 0) i =
      (decide (8 * k + i < m) && bits.getD (8 * k + i) false) := by
  induction m with
  | zero =>
    simp [bitOf]
  | succ m ih =>
    rw [range_succ, foldl_append, foldl_cons, foldl_nil, setBit]
    generalize hbytes : (List.range m).foldl (setBit bits)
      (List.replicate ((bits.length + 7) / 8) 0) = bytes at ih ⊢
    have hlength : bytes.length = (bits.length + 7) / 8 := by
      rw [← hbytes, length_setBits, length_replicate]
    have hsome : bytes[k]? = some (bytes.getD k 0) := by
      rw [getD_eq_getElem?_getD, getElem?_eq_getElem (by omega), Option.getD_some]
    rw [getD_eq_getElem?_getD, getElem?_modify, hsome]
    by_cases hbyte : m / 8 = k
    · show bitOf (if m / 8 = k then _ else _) i = _
      rw [if_pos hbyte, bitOf_or hi (Nat.mod_lt m (by decide)), ih]
      by_cases hbit : i = m % 8
      · have hm : 8 * k + i = m := by omega
        rw [hm, ← hbit]
        simp
      · have hm : (8 * k + i < m + 1) ↔ 8 * k + i < m := by omega
        simp [hm, hbit]
    · show bitOf (if m / 8 = k then _ else _) i = _
      have hm : (8 * k + i < m + 1) ↔ 8 * k + i < m := by omega
      rw [if_neg hbyte, ih]
      simp [hm]

/-- **Bits that have been packed** are unpacked, with zeros behind them. -/
theorem unpackBits_packBits : unpackBits (packBits bits) =
      bits ++ List.replicate ((bits.length + 7) / 8 * 8 - bits.length) false := by
  apply ext_getElem?
  intro p
  rw [unpackBits, getElem?_map, length_packBits]
  by_cases hp : p < (bits.length + 7) / 8 * 8
  · rw [getElem?_range hp, Option.map_some, packBits,
      bitOf_setBits bits bits.length (p / 8) (Nat.mod_lt p (by decide)) (by omega),
      Nat.div_add_mod]
    by_cases hlt : p < bits.length
    · rw [getElem?_append_left hlt, getD_eq_getElem?_getD, getElem?_eq_getElem hlt]
      simp [hlt]
    · rw [getElem?_append_right (by omega), getElem?_replicate, if_pos (by omega)]
      simp [hlt]
  · rw [getElem?_eq_none (by rw [length_range]; omega), getElem?_eq_none
      (by rw [length_append, length_replicate]; omega)]
    rfl

end BitPack
