import Chratos.Lib.Codec
import Mathlib.Algebra.Order.BigOperators.Group.List
import Mathlib.Tactic.Linarith

/-!
# Chratos — the wire format's integers (`serialize.h`)

Two variable-length integers occur in what is hashed, sized and stored.

* `CompactSize` prefixes every vector. Reading insists on the shortest form and on the
  `MAX_SIZE` limit (`reads_readCompactSize`).
* `VARINT` is the base-128 form of the coin database and the undo files. A continued digit
  stands for one more than it says, so every number has one form (`reads_readVarInt`).
  The writer compares its argument as a *signed* number: a negative one is taken for a
  single digit and comes back as its low seven bits (`reads_readVarInt_neg`).
-/

namespace Chratos

open Codec List

/-! ## CompactSize -/

def MAX_SIZE : Nat := 0x02000000

def writeCompactSize (nSize : Nat) : List UInt8 :=
  if nSize < 253 then [UInt8.ofNat nSize]
  else if nSize ≤ 0xffff then 253 :: leBytes 2 nSize
  else if nSize ≤ 0xffffffff then 254 :: leBytes 4 nSize
  else 255 :: leBytes 8 nSize

/-- The `k`-byte form, refused when a shorter one would have done. -/
def readCanonical (k least : Nat) : Reader Nat := do
  let n ← readLE k
  if n < least then failure else pure n

def readSizeBody (chSize : UInt8) : Reader Nat :=
  if chSize < 253 then pure chSize.toNat
  else if chSize = 253 then readCanonical 2 253
  else if chSize = 254 then readCanonical 4 0x10000
  else readCanonical 8 0x100000000

def readCompactSize : Reader Nat := do
  let chSize ← readByte
  let nSizeRet ← readSizeBody chSize
  if nSizeRet > MAX_SIZE then failure else pure nSizeRet

/-- A vector on the wire: its length, then its items. -/
def serVector {α : Type} (enc : α → List UInt8) (xs : List α) : List UInt8 :=
  writeCompactSize xs.length ++ xs.flatMap enc

def unserVector {α : Type} (p : Reader α) : Reader (List α) := do
  let n ← readCompactSize
  readMany p n

variable {n : Nat}

theorem reads_readCanonical {k least : Nat} (hn : n < 256 ^ k) (hleast : least ≤ n) :
    Reads (readCanonical k least) (leBytes k n) n :=
  (reads_readLE hn).bind_nil (reads_check (by omega) n)

/-- The tag byte and what follows it, for every size that fits eight bytes. -/
theorem writeCompactSize_eq (hn : n < 2 ^ 64) :
    ∃ tag body, writeCompactSize n = [tag] ++ body ∧ Reads (readSizeBody tag) body n := by
  unfold writeCompactSize
  split
  · rename_i h
    have hb : (UInt8.ofNat n).toNat = n := by
      rw [UInt8.toNat_ofNat', Nat.mod_eq_of_lt (by omega)]
    have hlt : UInt8.ofNat n < 253 := by
      rw [UInt8.lt_iff_toNat_lt, hb]
      exact h
    refine ⟨UInt8.ofNat n, [], rfl, ?_⟩
    rw [readSizeBody, if_pos hlt, hb]
    exact reads_pure n
  · split
    · exact ⟨253, leBytes 2 n, rfl, reads_readCanonical (by omega) (by omega)⟩
    · split
      · exact ⟨254, leBytes 4 n, rfl, reads_readCanonical (by omega) (by omega)⟩
      · exact ⟨255, leBytes 8 n, rfl, reads_readCanonical (by omega) (by omega)⟩

/-- Every size a reader may accept is read back. -/
theorem reads_readCompactSize (hn : n ≤ MAX_SIZE) :
    Reads readCompactSize (writeCompactSize n) n := by
  have hmax : n ≤ 0x02000000 := hn
  obtain ⟨tag, body, heq, hbody⟩ := writeCompactSize_eq (n := n) (by omega)
  rw [heq]
  exact (reads_readByte tag).bind (hbody.bind_nil (reads_check (by omega) n))

variable {α β : Type} {enc : α → List UInt8} {xs : List α}

/-- A vector is read back item by item, `g` being what reading makes of an item. -/
theorem reads_unserVector {p : Reader β} {g : α → β} (hlen : xs.length ≤ MAX_SIZE)
    (h : ∀ x ∈ xs, Reads p (enc x) (g x)) : Reads (unserVector p) (serVector enc xs) (xs.map g) :=
  (reads_readCompactSize hlen).bind (.many h)

/-- A size that has been read is within the limit. -/
theorem yields_readCompactSize : Yields readCompactSize (· ≤ MAX_SIZE) :=
  (yields_true _).bind fun _ _ => (yields_true _).bind fun _ _ =>
    yields_ite (fun _ => yields_failure) fun hle => yields_pure (by omega)

theorem yields_unserVector {p : Reader α} {P : α → Prop} (hp : Yields p P) :
    Yields (unserVector p) fun xs => xs.length ≤ MAX_SIZE ∧ ∀ x ∈ xs, P x :=
  yields_readCompactSize.bind fun n hn => fun _ _ _ hread => by
    obtain ⟨hlen, hall⟩ := hp.many n hread
    exact ⟨hlen.trans_le hn, hall⟩

theorem length_writeCompactSize (n : Nat) : (writeCompactSize n).length =
    if n < 253 then 1 else if n ≤ 0xffff then 3 else if n ≤ 0xffffffff then 5 else 9 := by
  unfold writeCompactSize
  split_ifs <;> simp only [length_cons, length_nil, length_leBytes]

theorem length_writeCompactSize_pos (n : Nat) : 0 < (writeCompactSize n).length := by
  unfold writeCompactSize
  split_ifs <;> exact Nat.succ_pos _

theorem length_le_flatMap (h : ∀ x ∈ xs, 1 ≤ (enc x).length) :
    xs.length ≤ (xs.flatMap enc).length := by
  rw [length_flatMap, ← length_map (fun x => (enc x).length)]
  exact length_le_sum_of_one_le _ (forall_mem_map.mpr h)

theorem length_le_serVector (h : ∀ x ∈ xs, 1 ≤ (enc x).length) :
    xs.length ≤ (serVector enc xs).length := by
  rw [serVector, length_append]
  exact Nat.le_add_left_of_le (length_le_flatMap h)

/-! ### What a size and a vector say of themselves -/

/-- A size is read back by what its tag byte announces. -/
theorem determines_writeCompactSize :
    Determines writeCompactSize (· < 2 ^ 64) (fun n : Nat => n) := by
  refine determines_of_reads (p := readByte >>= readSizeBody) fun n hn => ?_
  obtain ⟨tag, body, heq, hbody⟩ := writeCompactSize_eq hn
  rw [heq]
  exact (reads_readByte tag).bind hbody

/-- A vector determines what its items determine. -/
theorem determines_serVector {dom : α → Prop} {view : α → β} (h : Determines enc dom view) :
    Determines (serVector enc) (fun xs => xs.length < 2 ^ 64 ∧ ∀ x ∈ xs, dom x)
      fun xs => xs.map view := by
  intro xs ys hxs hys rest rest' heq
  rw [serVector, serVector, append_assoc, append_assoc] at heq
  obtain ⟨hlen, hitems⟩ := determines_writeCompactSize hxs.1 hys.1 heq
  exact determines_flatMap h hlen hxs.2 hys.2 rest rest' hitems

/-! ## VARINT -/

/-- The writer's loop: `tmp` is filled from the low digit up and sent from the top down, so
each round puts its digit in front of those already there. `cont` is the continuation bit,
set in every round but the first; `fuel` is the size of `tmp`. -/
def writeVarIntLoop : Nat → Int → Nat → List UInt8 → List UInt8
  | 0, _, _, tmp => tmp
  | fuel + 1, n, cont, tmp =>
    let tmp := UInt8.ofNat ((n % 128).toNat + cont) :: tmp
    if n ≤ 0x7F then tmp else writeVarIntLoop fuel (n / 128 - 1) 128 tmp

def writeVarInt (n : Int) : List UInt8 := writeVarIntLoop 10 n 0 []

def readVarIntLoop (n : Nat) : Reader Nat
  | [] => none
  | chData :: rest =>
    let n := n * 128 + chData.toNat % 128
    if 128 ≤ chData.toNat then readVarIntLoop (n + 1) rest else some (n, rest)

def readVarInt : Reader Nat := readVarIntLoop 0

theorem writeVarIntLoop_append (fuel : Nat) (n : Int) (cont : Nat) (tmp : List UInt8) :
    writeVarIntLoop fuel n cont tmp = writeVarIntLoop fuel n cont [] ++ tmp := by
  induction fuel generalizing n cont tmp with
  | zero => rfl
  | succ fuel ih =>
    simp only [writeVarIntLoop]
    split
    · simp
    · rw [ih, ih (n / 128 - 1) 128 [_], append_assoc]
      rfl

/-- The digits that all carry the continuation bit and leave the reader at `m`. -/
def continued (m : Nat) : List UInt8 :=
  if m = 0 then [] else continued ((m - 1) / 128) ++ [UInt8.ofNat ((m - 1) % 128 + 128)]

theorem continued_succ {low : Nat} (hlow : low < 128) (m : Nat) :
    continued (m * 128 + low + 1) = continued m ++ [UInt8.ofNat (low + 128)] := by
  have hquot : (m * 128 + low + 1 - 1) / 128 = m := by omega
  have hdigit : (m * 128 + low + 1 - 1) % 128 = low := by omega
  rw [continued, if_neg (Nat.succ_ne_zero _), hquot, hdigit]

/-- Every round but the last writes such a digit. -/
theorem writeVarIntLoop_eq {fuel : Nat} {n : Int} (h0 : 0 ≤ n) (hn : n < 128 ^ (fuel + 1))
    (cont : Nat) :
    writeVarIntLoop (fuel + 1) n cont [] =
      continued (n.toNat / 128) ++ [UInt8.ofNat ((n % 128).toNat + cont)] := by
  induction fuel generalizing n cont with
  | zero =>
    have hquot : n.toNat / 128 = 0 := by omega
    rw [writeVarIntLoop, if_pos (by omega), hquot, continued]
    rfl
  | succ fuel ih =>
    rw [writeVarIntLoop]
    split
    · have hquot : n.toNat / 128 = 0 := by omega
      rw [hquot, continued]
      rfl
    · have hquot :
        (n / 128 - 1).toNat / 128 * 128 + ((n / 128 - 1) % 128).toNat + 1 = n.toNat / 128 := by
        omega
      rw [writeVarIntLoop_append, ih (by omega) (by omega), ← continued_succ (by omega), hquot]

theorem writeVarInt_eq {n : Int} (h0 : 0 ≤ n) (hn : n < 2 ^ 64) :
    writeVarInt n = continued (n.toNat / 128) ++ [UInt8.ofNat (n % 128).toNat] :=
  writeVarIntLoop_eq h0 (by omega) 0

theorem readVarIntLoop_continued (m : Nat) (rest : List UInt8) :
    readVarIntLoop 0 (continued m ++ rest) = readVarIntLoop m rest := by
  induction m using continued.induct generalizing rest with
  | case1 =>
    rw [continued]
    rfl
  | case2 m hm ih =>
    have hdigit : (UInt8.ofNat ((m - 1) % 128 + 128)).toNat = (m - 1) % 128 + 128 :=
      UInt8.toNat_ofNat_of_lt' (show _ < 256 by omega)
    rw [continued, if_neg hm, append_assoc, ih, singleton_append, readVarIntLoop, hdigit,
      if_pos (by omega)]
    congr 1
    omega

theorem reads_continued {low : Nat} (hlow : low < 128) (m : Nat) :
    Reads readVarInt (continued m ++ [UInt8.ofNat low]) (m * 128 + low) := by
  intro rest
  rw [readVarInt, append_assoc, readVarIntLoop_continued, singleton_append, readVarIntLoop,
    UInt8.toNat_ofNat_of_lt' (show low < 256 by omega), if_neg (by omega), Nat.mod_eq_of_lt hlow]

/-- **VARINT round trip.** Every 64-bit unsigned number is read back as itself. -/
theorem reads_readVarInt {n : Int} (h0 : 0 ≤ n) (hn : n < 2 ^ 64) :
    Reads readVarInt (writeVarInt n) n.toNat := by
  have hread := reads_continued (show (n % 128).toNat < 128 by omega) (n.toNat / 128)
  rwa [← writeVarInt_eq h0 hn, show n.toNat / 128 * 128 + (n % 128).toNat = n.toNat by omega] at hread

/-- A negative number is written as one digit: its low seven bits are all that is kept. -/
theorem reads_readVarInt_neg {n : Int} (hn : n < 0) :
    Reads readVarInt (writeVarInt n) (n % 128).toNat := by
  have hread := reads_continued (show (n % 128).toNat < 128 by omega) 0
  rw [continued, if_pos rfl, zero_mul, zero_add] at hread
  rw [writeVarInt, writeVarIntLoop, if_pos (by omega)]
  exact hread

/-- What is read to the end are the digits of the number. -/
theorem readVarIntLoop_eq_some {bs : List UInt8} {m n : Nat} (h : readVarIntLoop m bs = some (n, [])) :
    continued m ++ bs = continued (n / 128) ++ [UInt8.ofNat (n % 128)] := by
  induction bs generalizing m with
  | nil => cases h
  | cons chData rest ih =>
    have hlt := chData.toNat_lt
    rw [readVarIntLoop] at h
    split at h
    · rw [← ih h, continued_succ (by omega), append_assoc,
        show chData.toNat % 128 + 128 = chData.toNat by omega, UInt8.ofNat_toNat]
      rfl
    · cases h
      rw [show (m * 128 + chData.toNat % 128) / 128 = m by omega,
        show (m * 128 + chData.toNat % 128) % 128 = chData.toNat by omega, UInt8.ofNat_toNat]

def getSizeOfVarInt (n : Nat) : Nat :=
  if n ≤ 0x7F then 1 else getSizeOfVarInt (n / 128 - 1) + 1

theorem getSizeOfVarInt_eq (n : Nat) : getSizeOfVarInt n = (continued (n / 128)).length + 1 := by
  induction n using getSizeOfVarInt.induct with
  | case1 n hn =>
    rw [getSizeOfVarInt, if_pos hn, Nat.div_eq_of_lt (by omega), continued]
    rfl
  | case2 n hn ih =>
    rw [getSizeOfVarInt, if_neg hn, ih]
    conv_rhs => rw [continued, if_neg (by omega), length_append]
    rfl

theorem getSizeOfVarInt_le {k n : Nat} (h : n < 128 ^ (k + 1)) : getSizeOfVarInt n ≤ k + 1 := by
  induction k generalizing n with
  | zero => rw [getSizeOfVarInt, if_pos (by omega)]
  | succ k ih =>
    rw [getSizeOfVarInt]
    split
    · omega
    · exact Nat.succ_le_succ (ih (by omega))

/-- `ReadVarInt` into an unsigned type of `w` bits: what is shifted out of it is lost. -/
def readVarIntOf (w n : Nat) : Reader Nat
  | [] => none
  | chData :: rest =>
    let n := (n * 128 + chData.toNat % 128) % 2 ^ w
    if 128 ≤ chData.toNat then readVarIntOf w ((n + 1) % 2 ^ w) rest else some (n, rest)

theorem readVarIntOf_eq (w m : Nat) (bs : List UInt8) :
    readVarIntOf w (m % 2 ^ w) bs = (readVarIntLoop m bs).map fun r => (r.1 % 2 ^ w, r.2) := by
  induction bs generalizing m with
  | nil => rfl
  | cons chData rest ih =>
    have hnext : (m % 2 ^ w * 128 + chData.toNat % 128) % 2 ^ w =
        (m * 128 + chData.toNat % 128) % 2 ^ w := by
      rw [Nat.add_mod, Nat.mul_mod, Nat.mod_mod, ← Nat.mul_mod, ← Nat.add_mod]
    rw [readVarIntOf, readVarIntLoop, hnext, Nat.mod_add_mod, ih]
    split <;> rfl

/-- **VARINT is one-to-one as long as nothing is shifted out.** A number of the type is read back, in as
many bytes as `GetSizeOfVarInt` says, for which `tmp` has room. A string that is accepted is the
encoding of what is returned exactly when the number its digits stand for is one of the type. -/
theorem varInt_one_to_one_iff {w : Nat} (hw : w = 8 ∨ w = 16 ∨ w = 32 ∨ w = 64) :
    (∀ n : Nat, n < 2 ^ w → Reads (readVarIntOf w 0) (writeVarInt n) n ∧
      (writeVarInt n).length = getSizeOfVarInt n ∧ getSizeOfVarInt n ≤ (w + 6) / 7) ∧
    ∀ bs n, readVarIntOf w 0 bs = some (n, []) →
      (bs = writeVarInt n ↔ ∃ m < 2 ^ w, readVarInt bs = some (m, [])) := by
  have hsize : ∀ n : Nat, n < 2 ^ w → n < 2 ^ 64 ∧ getSizeOfVarInt n ≤ (w + 6) / 7 := by
    intro n hn
    rcases hw with rfl | rfl | rfl | rfl
    · exact ⟨by omega, getSizeOfVarInt_le (k := 1) (by omega)⟩
    · exact ⟨by omega, getSizeOfVarInt_le (k := 2) (by omega)⟩
    · exact ⟨by omega, getSizeOfVarInt_le (k := 4) (by omega)⟩
    · exact ⟨by omega, getSizeOfVarInt_le (k := 9) (by omega)⟩
  have hdigits : ∀ n :
    Nat, n < 2 ^ w → writeVarInt n = continued (n / 128) ++ [UInt8.ofNat (n % 128)] :=
    fun n hn => writeVarInt_eq (by omega) (by have := hsize n hn; omega)
  have hzero : ∀ bs, readVarIntOf w 0 bs = (readVarInt bs).map fun r => (r.1 % 2 ^ w, r.2) :=
    fun bs => Nat.zero_mod (2 ^ w) ▸ readVarIntOf_eq w 0 bs
  have hback : ∀ n : Nat, n < 2 ^ w → Reads readVarInt (writeVarInt n) n := fun n hn =>
    reads_readVarInt (n := n) (by omega) (by have := hsize n hn; omega)
  refine ⟨fun n hn => ⟨fun rest => ?_, ?_, (hsize n hn).2⟩, fun bs n h => ?_⟩
  · rw [hzero, hback n hn rest, Option.map_some, Nat.mod_eq_of_lt hn]
  · rw [hdigits n hn, length_append, getSizeOfVarInt_eq]
    rfl
  · rw [hzero, Option.map_eq_some_iff] at h
    obtain ⟨⟨m, rest⟩, hread, hm⟩ := h
    obtain ⟨rfl, rfl⟩ := Prod.mk.inj hm
    constructor
    · intro hbs
      have hlt : m % 2 ^ w < 2 ^ w := Nat.mod_lt _ (by positivity)
      exact ⟨_, hlt, by simpa [hbs] using hback _ hlt []⟩
    · rintro ⟨m', hlt, hread'⟩
      rw [hread] at hread'
      cases hread'
      rw [Nat.mod_eq_of_lt hlt, hdigits m hlt, ← readVarIntLoop_eq_some hread, continued]
      rfl

theorem varInt_one_to_one_iff_300 :
    readVarIntOf 32 0 [0x81, 0x2c] = some (300, []) ∧ writeVarInt 300 = [0x81, 0x2c] :=
  have h : readVarIntOf 32 0 [0x81, 0x2c] = some (300, []) := by decide
  ⟨h, (((varInt_one_to_one_iff (by decide)).2 _ _ h).mpr ⟨300, by decide, by decide⟩).symm⟩

/-- The encoding of `2 ^ 32` is read into 32 bits as zero. -/
theorem readVarIntOf_wraps : readVarIntOf 32 0 [0x8e, 0xfe, 0xfe, 0xff, 0x00] = some (0, []) ∧
      writeVarInt 0 ≠ [0x8e, 0xfe, 0xfe, 0xff, 0x00] := by
  decide

end Chratos
