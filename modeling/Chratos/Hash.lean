import Chratos.Relay.CompactBlock

/-!
# Chratos — SipHash in pieces (`hash.cpp`)

`CSipHasher` collects bytes in one word and mixes it in when it is full (`write_leBytes_words`).
`SipHashUint256` is the same for 32 bytes, unrolled.
-/

namespace Chratos

open Codec List

structure SipState where
  v0 : UInt64
  v1 : UInt64
  v2 : UInt64
  v3 : UInt64

namespace SipState

/-- `ROTL`. -/
def rotl (x b : UInt64) : UInt64 := x <<< b ||| x >>> (64 - b)

/-- `SIPROUND`. -/
def round (v : SipState) : SipState :=
  let v0 := v.v0 + v.v1
  let v1 := rotl v.v1 13 ^^^ v0
  let v0 := rotl v0 32
  let v2 := v.v2 + v.v3
  let v3 := rotl v.v3 16 ^^^ v2
  let v0 := v0 + v3
  let v3 := rotl v3 21 ^^^ v0
  let v2 := v2 + v1
  let v1 := rotl v1 17 ^^^ v2
  ⟨v0, v1, rotl v2 32, v3⟩

/-- A word goes into `v3`, and after two rounds into `v0`. -/
def mix (v : SipState) (d : UInt64) : SipState :=
  let v := round (round { v with v3 := v.v3 ^^^ d })
  { v with v0 := v.v0 ^^^ d }

/-- The last four rounds. -/
def finish (v : SipState) : UInt64 :=
  let v := round (round (round (round { v with v2 := v.v2 ^^^ 0xFF })))
  v.v0 ^^^ v.v1 ^^^ v.v2 ^^^ v.v3

/-- The state for a key. -/
def new (k0 k1 : UInt64) : SipState :=
  ⟨0x736f6d6570736575 ^^^ k0, 0x646f72616e646f6d ^^^ k1, 0x6c7967656e657261 ^^^ k0,
    0x7465646279746573 ^^^ k1⟩

end SipState

/-- `SipHashUint256`. -/
def sipHashUint256 (k0 k1 : UInt64) (val : Uint256) : UInt64 :=
  ((((((SipState.new k0 k1).mix (getUint64 val 0)).mix (getUint64 val 1)).mix
    (getUint64 val 2)).mix (getUint64 val 3)).mix ((4 : UInt64) <<< 59)).finish

structure CSipHasher where
  v : SipState
  tmp : UInt64 := 0
  count : Nat := 0

namespace CSipHasher

def new (k0 k1 : UInt64) : CSipHasher := { v := .new k0 k1 }

/-- `Write` of a word. -/
def writeWord (h : CSipHasher) (data : UInt64) : Option CSipHasher :=
  if h.count % 8 = 0 then some { h with v := h.v.mix data, count := h.count + 8 } else none

/-- One byte of `Write`. -/
def writeByte (h : CSipHasher) (b : UInt8) : CSipHasher :=
  let t := h.tmp ||| b.toUInt64 <<< .ofNat (8 * (h.count % 8))
  if (h.count + 1) % 8 = 0 then { v := h.v.mix t, count := h.count + 1 }
  else { h with tmp := t, count := h.count + 1 }

def write (h : CSipHasher) (data : List UInt8) : CSipHasher := data.foldl writeByte h

def finalize (h : CSipHasher) : UInt64 := (h.v.mix (h.tmp ||| UInt64.ofNat h.count <<< 56)).finish

variable {h : CSipHasher} {n k : Nat}

/-- A byte above those that have been collected. -/
theorem ofNat_or_shiftLeft (hk : k < 8) (n : Nat) :
    UInt64.ofNat (n % 256 ^ k) ||| (UInt8.ofNat (n / 256 ^ k)).toUInt64 <<< .ofNat (8 * k) =
      .ofNat (n % 256 ^ (k + 1)) := by
  have hpow : 256 ^ k = 2 ^ (8 * k) := (Nat.pow_mul 2 8 k).symm
  have hlow : n % 2 ^ (8 * k) < 2 ^ (8 * k) := Nat.mod_lt _ (Nat.two_pow_pos _)
  have hle : 2 ^ (8 * k) ≤ 2 ^ 56 := Nat.pow_le_pow_right (by decide) (by omega)
  have hhigh : 2 ^ (8 * k) * (n / 2 ^ (8 * k) % 2 ^ 8) ≤ 2 ^ 56 * 255 :=
    Nat.mul_le_mul hle (by omega)
  rw [pow_succ, Nat.mod_mul, hpow, ← UInt64.toNat_inj, UInt64.toNat_or, UInt64.toNat_shiftLeft,
    UInt8.toNat_toUInt64, UInt8.toNat_ofNat', UInt64.toNat_ofNat', UInt64.toNat_ofNat',
    UInt64.toNat_ofNat', Nat.shiftLeft_eq, show 8 * k % 2 ^ 64 % 64 = 8 * k by omega,
    mul_comm _ (2 ^ (8 * k)), add_comm]
  generalize n / 2 ^ (8 * k) % 2 ^ 8 = high at hhigh ⊢
  generalize n % 2 ^ (8 * k) = low at hlow ⊢
  rw [Nat.mod_eq_of_lt (by omega), Nat.mod_eq_of_lt (by omega),
    Nat.mod_eq_of_lt (by omega), Nat.or_comm]
  exact (Nat.two_pow_add_eq_or_of_lt hlow _).symm

theorem write_append (data rest : List UInt8) : h.write (data ++ rest) = (h.write data).write rest :=
  foldl_append

/-- The bytes of a word up to the last are collected. -/
theorem write_leBytes (hcount : h.count % 8 = 0) (htmp : h.tmp = 0) (hk : k < 8) :
    h.write (leBytes k n) = { h with tmp := .ofNat (n % 256 ^ k), count := h.count + k } := by
  induction k with
  | zero => rw [pow_zero, Nat.mod_one, ← show h.tmp = .ofNat 0 from htmp]; rfl
  | succ k ih =>
    rw [leBytes_add k 1, write_append, ih (by omega)]
    show writeByte _ _ = _
    rw [writeByte, show (h.count + k) % 8 = k by omega, ofNat_or_shiftLeft (by omega),
      if_neg (by dsimp only; omega)]
    rfl

/-- Bytes of words are those words. -/
theorem write_leBytes_words (hcount : h.count % 8 = 0) (htmp : h.tmp = 0) (words : Nat) :
    h.write (leBytes (8 * words) n) =
      { v := ((range words).map fun pos => .ofNat (n / 256 ^ (8 * pos))).foldl SipState.mix h.v,
        count := h.count + 8 * words } := by
  induction words with
  | zero => rw [← htmp]; rfl
  | succ words ih =>
    rw [Nat.mul_succ, leBytes_add, leBytes_add 7 1, write_append, ih, write_append,
      write_leBytes (k := 7) (by dsimp only; omega) (by rfl) (by decide)]
    show writeByte _ _ = _
    rw [writeByte, show (h.count + 8 * words + 7) % 8 = 7 by omega, ofNat_or_shiftLeft (by decide),
      if_pos (by dsimp only; omega), range_succ, map_append, foldl_append,
      show ∀ m, UInt64.ofNat (m % 256 ^ (7 + 1)) = .ofNat m from fun _ => UInt64.ofNat_mod_size]
    rfl

/-- The words of a hash stand in its bytes. -/
theorem ofNat_div_eq_getUint64 (val : Uint256) (pos : Nat) :
    UInt64.ofNat (val.toNat / 256 ^ (8 * pos)) = getUint64 val pos := by
  have hpow : 256 ^ (8 * pos) = 2 ^ (64 * pos) := by rw [Nat.mul_assoc 8 8 pos, Nat.pow_mul 2 8]
  rw [getUint64, ← UInt64.toNat_inj, UInt64.toNat_ofNat', hpow, ← Nat.shiftRight_eq_div_pow]
  exact (BitVec.extractLsb'_toNat ..).symm

/-- The shortcut gives what the hasher gives for the bytes, however they are cut, and for the words. -/
theorem sipHashUint256_eq_finalize (k0 k1 : UInt64) (val : Uint256) :
    (∀ chunks : List (List UInt8), chunks.flatten = serUint256 val →
      (chunks.foldl write (new k0 k1)).finalize = sipHashUint256 k0 k1 val) ∧
    (([0, 1, 2, 3].map (getUint64 val)).foldlM writeWord (new k0 k1)).map finalize =
      some (sipHashUint256 k0 k1 val) := by
  have hlast : (0 : UInt64) ||| UInt64.ofNat 32 <<< 56 = (4 : UInt64) <<< 59 := rfl
  refine ⟨fun chunks hchunks => ?_, by simp [writeWord, new, finalize, sipHashUint256, ← hlast]⟩
  have hfold : chunks.foldl write (new k0 k1) = (new k0 k1).write (serUint256 val) := by
    rw [← hchunks, write, foldl_flatten]
    rfl
  rw [hfold, serUint256, write_leBytes_words rfl rfl 4, sipHashUint256, ← hlast]
  simp only [ofNat_div_eq_getUint64]
  rfl

end CSipHasher

end Chratos
