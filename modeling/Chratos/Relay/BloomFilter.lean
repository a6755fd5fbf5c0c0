import Chratos.Lib.BitPack
import Chratos.Primitives.Transaction

/-!
# Chratos — bloom filters (`bloom.cpp`)

A key is a set of bits of `vData`. `isFull` and `isEmpty` answer without a look at the bits, and
`UpdateEmptyFull` reads them off the bytes, whatever was inserted.
-/

namespace Chratos

open BitPack List

structure CBloomFilter where
  vData : List UInt8
  isFull : Bool
  isEmpty : Bool
  nHashFuncs : UInt32
  nTweak : UInt32
  nFlags : UInt8

/-- What the filter calls: `MurmurHash3`, the hash of a transaction, and whether `Solver` finds
`TX_PUBKEY` or `TX_MULTISIG`. -/
structure BloomEnv where
  murmurHash3 : UInt32 → List UInt8 → UInt32
  hash256 : List UInt8 → Uint256
  paysToKeys : CScript → Bool

def bitAt (vData : List UInt8) (nIndex : Nat) : Bool := bitOf (vData.getD (nIndex / 8) 0) (nIndex % 8)

def setBitAt (vData : List UInt8) (nIndex : Nat) : List UInt8 :=
  vData.modify (nIndex / 8) (· ||| 1 <<< UInt8.ofNat (nIndex % 8))

/-- The data that `GetOp` reads from a script, as far as it gets. -/
def pushedData : Nat → CScript → List (List UInt8)
  | 0, _ => []
  | fuel + 1, pc =>
    match getOp pc with
    | none => []
    | some (_, data, pc) => data :: pushedData fuel pc

namespace CBloomFilter

variable (env : BloomEnv)

section

variable (f : CBloomFilter)

/-- `CBloomFilter::Hash`. -/
def hash (nHashNum : Nat) (vDataToHash : List UInt8) : Nat :=
  (env.murmurHash3 (UInt32.ofNat nHashNum * 0xFBA4C795 + f.nTweak) vDataToHash).toNat %
    (f.vData.length * 8)

/-- The bits of a key. -/
def indexes (vKey : List UInt8) : List Nat :=
  (List.range f.nHashFuncs.toNat).map (f.hash env · vKey)

def insert (vKey : List UInt8) : CBloomFilter :=
  if f.isFull then f
  else { f with vData := (f.indexes env vKey).foldl setBitAt f.vData, isEmpty := false }

def contains (vKey : List UInt8) : Bool :=
  f.isFull || !f.isEmpty && (f.indexes env vKey).all (bitAt f.vData)

/-- Some data of the script is in the filter. -/
def containsData (script : CScript) : Bool :=
  (pushedData script.length script).any fun data => data.length ≠ 0 && f.contains env data

/-- One round of the loop over the outputs. -/
def matchOutput (hash : Uint256) (s : Bool × CBloomFilter) (out : CTxOut × Nat) : Bool × CBloomFilter :=
  if s.2.containsData env out.1.scriptPubKey then
    (true, if s.2.nFlags &&& 3 = 1 ∨ s.2.nFlags &&& 3 = 2 ∧ env.paysToKeys out.1.scriptPubKey then
      s.2.insert env (COutPoint.serialize ⟨hash, UInt32.ofNat out.2⟩) else s.2)
  else s

def isRelevantAndUpdate (tx : CTransaction) : Bool × CBloomFilter :=
  if f.isFull then (true, f)
  else if f.isEmpty then (false, f)
  else
    let hash := tx.getHash env.hash256
    let s := tx.vout.zipIdx.foldl (matchOutput env hash) (f.contains env (serUint256 hash), f)
    (s.1 || tx.vin.any fun txin =>
      s.2.contains env txin.prevout.serialize || s.2.containsData env txin.scriptSig, s.2)

def updateEmptyFull : CBloomFilter :=
  { f with isFull := f.vData.all (· == 0xff), isEmpty := f.vData.all (· == 0) }

inductive Call where
  | insert (vKey : List UInt8)
  | isRelevantAndUpdate (tx : CTransaction)
  | updateEmptyFull

def Call.run : Call → CBloomFilter
  | .insert vKey => f.insert env vKey
  | .isRelevantAndUpdate tx => (f.isRelevantAndUpdate env tx).2
  | .updateEmptyFull => f.updateEmptyFull

end

/-! ## Bits -/

variable {env} {f : CBloomFilter} {k : List UInt8}

theorem length_setBits (vData : List UInt8) (l : List Nat) :
    (l.foldl setBitAt vData).length = vData.length := by
  induction l generalizing vData with
  | nil => rfl
  | cons q l ih => rw [foldl_cons, ih, setBitAt, length_modify]

theorem bitAt_setBits {vData : List UInt8} {p : Nat} (hp : p / 8 < vData.length) (l : List Nat) :
    bitAt (l.foldl setBitAt vData) p = (bitAt vData p || decide (p ∈ l)) := by
  induction l generalizing vData with
  | nil => simp
  | cons q l ih =>
    have hbit : bitAt (setBitAt vData q) p = (bitAt vData p || decide (p = q)) := by
      have hor :=
        bitOf_or (b := vData[p / 8]) (Nat.mod_lt p (by decide)) (Nat.mod_lt q (by decide)) true
      unfold bitAt setBitAt
      rw [getD_eq_getElem?_getD, getElem?_modify, getD_eq_getElem _ _ hp, getElem?_eq_getElem hp]
      by_cases hbyte : q / 8 = p / 8
      · have hiff : (p % 8 == q % 8) = decide (p = q) := by
          rw [Bool.eq_iff_iff, beq_iff_eq, decide_eq_true_eq]
          omega
        simpa [hbyte, hiff] using hor
      · have hne : p ≠ q := fun heq => hbyte (heq ▸ rfl)
        simp [hbyte, hne]
    rw [foldl_cons, ih (by rwa [setBitAt, length_modify]), hbit, Bool.or_assoc]
    simp

/-! ## What the filter keeps -/

/-- The flags go with the bytes, and `UpdateEmptyFull` does not take the filter for an empty one. -/
structure Sound (f : CBloomFilter) : Prop where
  ne : f.vData ≠ []
  full : f.isFull = true → ∀ b ∈ f.vData, b = 0xff
  set : f.nHashFuncs = 0 → ∃ b ∈ f.vData, b ≠ 0

/-- The filter has the bits of the key, and looks at them. -/
structure Holds (env : BloomEnv) (f : CBloomFilter) (vKey : List UInt8) : Prop extends Sound f where
  looks : f.isFull = true ∨ f.isEmpty = false
  bits : ∀ p ∈ f.indexes env vKey, bitAt f.vData p = true

theorem Holds.contains (h : Holds env f k) : f.contains env k = true := by
  refine Bool.or_eq_true_iff.mpr (h.looks.imp_right fun hlooks => ?_)
  rw [hlooks, Bool.not_false, Bool.true_and]
  exact all_eq_true.mpr h.bits

theorem Sound.index_lt (h : Sound f) {p : Nat} (hp : p ∈ f.indexes env k) : p / 8 < f.vData.length := by
  obtain ⟨i, -, rfl⟩ := mem_map.mp hp
  have hpos := length_pos_iff.mpr h.ne
  exact Nat.div_lt_of_lt_mul (mul_comm _ 8 ▸ Nat.mod_lt _ (by omega))

/-- Bits that are set stay, and those of the new key are set. -/
theorem Sound.holds_insert (h : Sound f) (vKey : List UInt8) (hk : k = vKey ∨ Holds env f k) :
    Holds env (f.insert env vKey) k := by
  unfold CBloomFilter.insert
  split_ifs with hfull
  · refine ⟨h, .inl hfull, fun p hp => ?_⟩
    have hlt := h.index_lt hp
    have hmod := Nat.mod_lt p (show 0 < 8 by decide)
    rw [bitAt, getD_eq_getElem _ _ hlt, h.full hfull _ (getElem_mem hlt), bitOf_eq hmod]
    exact (Nat.testBit_two_pow_sub_one 8 _).trans (decide_eq_true hmod)
  · have hsame : indexes env { f with
        vData := (f.indexes env vKey).foldl setBitAt f.vData, isEmpty := false } k =
          f.indexes env k := by
      simp only [indexes, hash, length_setBits]
    refine ⟨⟨?_, fun hf => absurd hf hfull, fun hzero => ?_⟩, .inr rfl, fun p hp => ?_⟩
    · rw [← length_pos_iff, length_setBits]
      exact length_pos_iff.mpr h.ne
    · have hnone : f.indexes env vKey = [] := by
        rw [indexes, show f.nHashFuncs = 0 from hzero]
        rfl
      rw [hnone]
      exact h.set hzero
    · rw [hsame] at hp
      rw [bitAt_setBits (h.index_lt hp), Bool.or_eq_true, decide_eq_true_eq]
      exact hk.symm.imp (fun h => h.bits p hp) fun h => by rwa [← h]

theorem Sound.updateEmptyFull (h : Sound f) : Sound f.updateEmptyFull where
  ne := h.ne
  full := fun hfull => by simpa [CBloomFilter.updateEmptyFull] using hfull
  set := h.set

theorem Holds.updateEmptyFull (h : Holds env f k) : Holds env f.updateEmptyFull k := by
  refine ⟨h.toSound.updateEmptyFull, .inr ?_, h.bits⟩
  have hset : ∃ b ∈ f.vData, b ≠ 0 := by
    by_cases hzero : f.nHashFuncs = 0
    · exact h.set hzero
    · have hpos : 0 < f.nHashFuncs.toNat := pos_of_ne_zero fun h => hzero (UInt32.toNat_inj.mp h)
      have hp : f.hash env 0 k ∈ f.indexes env k := mem_map_of_mem (mem_range.mpr hpos)
      have hbit := h.bits _ hp
      have hlt := h.index_lt hp
      refine ⟨_, getElem_mem hlt, fun hbyte => ?_⟩
      rw [bitAt, getD_eq_getElem _ _ hlt, hbyte] at hbit
      simp [bitOf] at hbit
  obtain ⟨b, hb, hne⟩ := hset
  exact all_eq_false.mpr ⟨b, hb, by simpa using hne⟩

/-- The loop over the outputs does nothing to the filter but `insert`. -/
theorem isRelevantAndUpdate_rec {P : CBloomFilter → Prop} (hP : ∀ f vKey, P f → P (f.insert env vKey))
    (h : P f) (tx : CTransaction) : P (f.isRelevantAndUpdate env tx).2 := by
  unfold isRelevantAndUpdate
  split_ifs
  · exact h
  · exact h
  · refine List.foldlRecOn (motive := fun s : Bool × CBloomFilter => P s.2) _ _ h fun s hs out _ => ?_
    unfold matchOutput
    split_ifs
    · exact hP _ _ hs
    · exact hs
    · exact hs

theorem Sound.run (h : Sound f) (call : Call) : Sound (call.run env f) := by
  have hinsert : ∀ f vKey, Sound f → Sound (f.insert env vKey) := fun _ vKey h =>
    (h.holds_insert vKey (.inl rfl)).toSound
  cases call with
  | insert vKey => exact hinsert f vKey h
  | isRelevantAndUpdate tx => exact isRelevantAndUpdate_rec hinsert h tx
  | updateEmptyFull => exact h.updateEmptyFull

theorem Holds.run (h : Holds env f k) (call : Call) : Holds env (call.run env f) k := by
  have hinsert : ∀ f vKey, Holds env f k → Holds env (f.insert env vKey) k := fun _ vKey h =>
    h.holds_insert vKey (.inr h)
  cases call with
  | insert vKey => exact hinsert f vKey h
  | isRelevantAndUpdate tx => exact isRelevantAndUpdate_rec hinsert h tx
  | updateEmptyFull => exact h.updateEmptyFull

/-- **No false negatives.** The filter finds what was inserted, if it has bytes, is marked full only
when they are, and has a hash function or a bit that is set. -/
theorem bloom_no_false_negatives (h : Sound f) (calls : List Call) (hk : .insert k ∈ calls) :
    (calls.foldl (Call.run env) f).contains env k = true := by
  obtain ⟨before, after, rfl⟩ := append_of_mem hk
  rw [foldl_append, foldl_cons]
  have hsound : Sound (before.foldl (Call.run env) f) :=
    List.foldlRecOn before _ h fun _ h call _ => h.run call
  have hholds := List.foldlRecOn (motive := (Holds env · k)) after (Call.run env)
    (hsound.holds_insert k (.inl rfl)) fun _ h call _ => h.run call
  exact hholds.contains

/-- The filter of a peer with one hash function, before and after its flags are computed. -/
theorem bloom_no_false_negatives_one :
    ([.insert [1], .updateEmptyFull].foldl (Call.run ⟨fun _ _ => 3, fun _ => 0, fun _ => false⟩)
      ⟨[0], false, true, 1, 0, 0⟩).contains ⟨fun _ _ => 3, fun _ => 0, fun _ => false⟩ [1] = true :=
  bloom_no_false_negatives ⟨by decide, by decide, by decide⟩ _ mem_cons_self

/-- A filter without hash functions is taken for an empty one as soon as its flags are computed, and one
that is marked full too early does not take the key. -/
theorem bloom_loses_key : [⟨[0], false, true, 0, 0, 0⟩, ⟨[0], true, false, 1, 0, 0⟩].all fun f =>
    ([.insert [1], .updateEmptyFull].foldl
      (Call.run ⟨fun _ _ => 3, fun _ => 0, fun _ => false⟩) f).contains
      ⟨fun _ _ => 3, fun _ => 0, fun _ => false⟩ [1] = false := by
  decide

end CBloomFilter
end Chratos
