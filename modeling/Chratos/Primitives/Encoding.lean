import Chratos.Primitives.Transaction
import Mathlib.Algebra.BigOperators.Ring.List

/-!
# Chratos — what the bytes of a transaction determine

Transactions and headers are identified by the hash of their bytes, so what two of them share when
their hashes agree is what their bytes determine.
-/

namespace Chratos

open Codec List CTransaction CTxOut

/-! ## Fields -/

def unserUint256 : Reader Uint256 := do
  let n ← readLE 32
  pure (BitVec.ofNat 256 n)

def unserInt32 : Reader Int := do
  let n ← readLE 4
  pure (Int.bmod n (2 ^ 32))

def unserUInt32 : Reader UInt32 := do
  let n ← readLE 4
  pure (UInt32.ofNat n)

def COutPoint.unserialize : Reader COutPoint := do
  let hash ← unserUint256
  let n ← unserUInt32
  pure ⟨hash, n⟩

theorem reads_unserUint256 (h : Uint256) : Reads unserUint256 (serUint256 h) h := by
  have hlt : h.toNat < 256 ^ 32 := h.isLt
  have hread := (reads_readLE hlt).map (BitVec.ofNat 256)
  rwa [BitVec.ofNat_toNat, BitVec.setWidth_eq] at hread

theorem reads_unserInt32 {n : Int} (hn : IsInt32 n) : Reads unserInt32 (serInt32 n) n := by
  have hlt : (n % 2 ^ 32).toNat < 256 ^ 4 := by omega
  have hread := (reads_readLE hlt).map fun m : Nat => Int.bmod m (2 ^ 32)
  have hself : Int.bmod ((n % 2 ^ 32).toNat : Int) (2 ^ 32) = n := by
    unfold IsInt32 at hn
    rw [Int.bmod_def]
    split <;> omega
  rwa [hself] at hread

theorem reads_unserUInt32 (n : UInt32) : Reads unserUInt32 (serUInt32 n) n := by
  have hread := (reads_readLE (k := 4) n.toNat_lt).map UInt32.ofNat
  rwa [UInt32.ofNat_toNat] at hread

theorem determines_serUint256 : Determines serUint256 (fun _ => True) (fun h : Uint256 => h) :=
  determines_of_reads fun h _ => reads_unserUint256 h

theorem determines_serUInt32 : Determines serUInt32 (fun _ => True) (fun n : UInt32 => n) :=
  determines_of_reads fun n _ => reads_unserUInt32 n

theorem determines_serInt32 : Determines serInt32 IsInt32 (fun n : Int => n) :=
  determines_of_reads fun _ hn => reads_unserInt32 hn

theorem determines_serBytes :
    Determines serBytes (fun bs => bs.length < 2 ^ 64) (fun bs : List UInt8 => bs) := by
  intro a b ha hb rest rest' heq
  rw [serBytes, serBytes, append_assoc, append_assoc] at heq
  obtain ⟨hlen, hbytes⟩ := determines_writeCompactSize ha hb heq
  exact append_inj hbytes hlen

theorem COutPoint.reads_unserialize (o : COutPoint) : Reads COutPoint.unserialize o.serialize o :=
  (reads_unserUint256 o.hash).bind ((reads_unserUInt32 o.n).map (COutPoint.mk o.hash))

theorem COutPoint.determines_serialize :
    Determines COutPoint.serialize (fun _ => True) (fun o : COutPoint => o) :=
  determines_of_reads fun o _ => o.reads_unserialize

/-- An input within the sizes of the code's types. -/
def CTxIn.Sized (i : CTxIn) : Prop := i.scriptSig.length < 2 ^ 64

/-- An output within the sizes of the code's types. -/
def CTxOut.Sized (o : CTxOut) : Prop := IsInt64 o.nValue ∧ o.scriptPubKey.length < 2 ^ 64

theorem CTxIn.determines_serialize :
    Determines CTxIn.serialize CTxIn.Sized (fun i : CTxIn => i) := by
  have hfields := ((COutPoint.determines_serialize.comap CTxIn.Sized CTxIn.prevout
    fun _ _ => trivial).and (determines_serBytes.comap _ CTxIn.scriptSig fun _ h => h)).and
    (determines_serUInt32.comap _ CTxIn.nSequence fun _ _ => trivial)
  refine hfields.weaken fun a b hview => ?_
  cases b
  cases hview
  rfl

theorem determines_nValue :
    Determines (fun n : Int => leBytes 8 (n % 2 ^ 64).toNat) IsInt64 (fun n : Int => n) := by
  refine determines_of_length (k := 8) (fun n _ => length_leBytes _ _) fun a b ha hb heq => ?_
  have hlt : ∀ n : Int, (n % 2 ^ 64).toNat < 256 ^ 8 := fun n => by omega
  have := (determines_leBytes 8).view_eq (hlt a) (hlt b) heq
  unfold IsInt64 at ha hb
  omega

theorem CTxOut.determines_serialize :
    Determines CTxOut.serialize CTxOut.Sized (fun o : CTxOut => o) := by
  have hfields := (determines_nValue.comap CTxOut.Sized nValue fun _ h => h.1).and
    (determines_serBytes.comap _ scriptPubKey fun _ h => h.2)
  refine hfields.weaken fun a b hview => ?_
  cases b
  cases hview
  rfl

/-! ## Transactions -/

namespace CTransaction

/-- A transaction within the sizes of the code's types. -/
@[mk_iff]
structure Sized (tx : CTransaction) : Prop where
  nVersion : IsInt32 tx.nVersion
  vin_lt : tx.vin.length < 2 ^ 64
  vin : ∀ i ∈ tx.vin, i.Sized
  vout_lt : tx.vout.length < 2 ^ 64
  vout : ∀ o ∈ tx.vout, o.Sized
  strDZeel_lt : tx.strDZeel.length < 2 ^ 64
  stack_lt : ∀ stack ∈ tx.wit, stack.length < 2 ^ 64
  item_lt : ∀ stack ∈ tx.wit, ∀ item ∈ stack, item.length < 2 ^ 64

instance (i : CTxIn) : Decidable i.Sized := inferInstanceAs (Decidable (_ < _))

instance (o : CTxOut) : Decidable o.Sized := inferInstanceAs (Decidable (_ ∧ _))

instance (tx : CTransaction) : Decidable tx.Sized := decidable_of_iff' _ (sized_iff tx)

/-- The same transaction but for the witnesses, as far as it is on the wire. -/
structure SameStripped (a b : CTransaction) : Prop where
  nVersion : a.nVersion = b.nVersion
  nTime : a.nTime = b.nTime
  vin : a.vin = b.vin
  vout : a.vout = b.vout
  nLockTime : a.nLockTime = b.nLockTime
  strDZeel : 2 ≤ a.nVersion → a.strDZeel = b.strDZeel

variable {a b : CTransaction}

theorem SameStripped.serializeBody (h : a.SameStripped b) : a.serializeBody = b.serializeBody := by
  rw [CTransaction.serializeBody, CTransaction.serializeBody, h.vin, h.vout]

theorem SameStripped.serializeTail (h : a.SameStripped b) : a.serializeTail = b.serializeTail := by
  rw [CTransaction.serializeTail, CTransaction.serializeTail, h.nLockTime]
  by_cases hv : 2 ≤ a.nVersion
  · rw [if_pos hv, if_pos (by rw [← h.nVersion]; exact hv), h.strDZeel hv]
  · rw [if_neg hv, if_neg (by rw [← h.nVersion]; exact hv)]

section

variable (tx : CTransaction)

theorem serialize_false : tx.serialize false =
    serInt32 tx.nVersion ++ serUInt32 tx.nTime ++ tx.serializeBody ++ tx.serializeTail := rfl

theorem SameStripped.serialize (h : a.SameStripped b) : a.serialize false = b.serialize false := by
  rw [serialize_false, serialize_false, h.nVersion, h.nTime, h.serializeBody, h.serializeTail]

/-- Version, time, inputs and outputs, then what follows them. -/
theorem body_inj (ha : a.Sized) (hb : b.Sized) {rest rest' : List UInt8}
    (heq : serInt32 a.nVersion ++ serUInt32 a.nTime ++ a.serializeBody ++ rest =
      serInt32 b.nVersion ++ serUInt32 b.nTime ++ b.serializeBody ++ rest') :
    a.nVersion = b.nVersion ∧ a.nTime = b.nTime ∧ a.vin = b.vin ∧ a.vout = b.vout ∧
      rest = rest' := by
  simp only [serializeBody, append_assoc] at heq
  obtain ⟨hversion, heq⟩ := determines_serInt32 ha.nVersion hb.nVersion heq
  obtain ⟨htime, heq⟩ := determines_serUInt32 trivial trivial heq
  obtain ⟨hvin, heq⟩ := determines_serVector CTxIn.determines_serialize ⟨ha.vin_lt, ha.vin⟩
    ⟨hb.vin_lt, hb.vin⟩ heq
  obtain ⟨hvout, heq⟩ := determines_serVector determines_serialize ⟨ha.vout_lt, ha.vout⟩
    ⟨hb.vout_lt, hb.vout⟩ heq
  simp only [map_id'] at hvin hvout
  exact ⟨hversion, htime, hvin, hvout, heq⟩

/-- **The bytes without witnesses** determine everything but the witnesses. -/
theorem serialize_inj (ha : a.Sized) (hb : b.Sized)
    (heq : a.serialize false = b.serialize false) : a.SameStripped b := by
  obtain ⟨hversion, htime, hvin, hvout, htail⟩ := body_inj ha hb heq
  obtain ⟨hlock, htext⟩ := determines_serUInt32 trivial trivial htail
  refine ⟨hversion, htime, hvin, hvout, hlock, fun hv => ?_⟩
  rw [if_pos hv, if_pos (by rw [← hversion]; exact hv)] at htext
  exact determines_serBytes.view_eq ha.strDZeel_lt hb.strDZeel_lt htext

/-! ### Witnesses -/

/-- The witness stack of every input; the missing ones are empty. -/
def witnessStacks : List (List (List UInt8)) :=
  tx.wit ++ List.replicate (tx.vin.length - tx.wit.length) []

theorem length_witnessStacks : tx.witnessStacks.length = tx.vin.length := by
  have := tx.wit_le
  rw [witnessStacks, length_append, length_replicate]
  omega

/-- Without witnesses all stacks are empty. -/
theorem witnessStacks_eq_replicate (h : a.hasWitness = false) :
    a.witnessStacks = List.replicate a.vin.length [] := by
  refine eq_replicate_iff.mpr ⟨a.length_witnessStacks, fun stack hstack => ?_⟩
  rcases mem_append.mp hstack with hwit | hpad
  · have := any_eq_false.mp h stack hwit
    simpa using this
  · exact (mem_replicate.mp hpad).2

theorem Sized.witnessStacks (ha : a.Sized) : ∀ stack ∈ a.witnessStacks,
    stack.length < 2 ^ 64 ∧ ∀ item ∈ stack, item.length < 2 ^ 64 := by
  intro stack hstack
  rcases mem_append.mp hstack with hwit | hpad
  · exact ⟨ha.stack_lt stack hwit, ha.item_lt stack hwit⟩
  · rw [(mem_replicate.mp hpad).2]
    exact ⟨by decide, nofun⟩

/-- The extended format starts where the plain one has the number of inputs. -/
theorem extended_ne_plain (ha : a.Sized) (hvin : a.vin ≠ []) (rest rest' : List UInt8) :
    a.serializeBody ++ rest ≠ [0, 1] ++ rest' := by
  intro heq
  rw [serializeBody, serVector, append_assoc, append_assoc] at heq
  have hlen := (determines_writeCompactSize ha.vin_lt (show 0 < 2 ^ 64 by decide) heq).1
  exact hvin (length_eq_zero_iff.mp hlen)

/-- **The bytes with witnesses** determine the witness stacks. -/
theorem serialize_witness_inj (ha : a.Sized) (hb : b.Sized) (hvin : a.vin ≠ [])
    (hsame : a.SameStripped b) (heq : a.serialize true = b.serialize true) :
    a.witnessStacks = b.witnessStacks := by
  have hvin' : b.vin ≠ [] := by rwa [← hsame.vin]
  simp only [serialize, Bool.true_and, hsame.nVersion, hsame.nTime,
    hsame.serializeTail, hsame.serializeBody, append_assoc, append_cancel_left_eq] at heq
  cases hwa : a.hasWitness with
  | true =>
    cases hwb : b.hasWitness with
    | true =>
      simp only [hwa, hwb, if_true, append_assoc, append_cancel_left_eq,
        append_cancel_right_eq] at heq
      have hstacks := determines_flatMap (determines_serVector determines_serBytes)
        ((length_witnessStacks a).trans ((congrArg _ hsame.vin).trans (length_witnessStacks b).symm))
        ha.witnessStacks hb.witnessStacks [] [] (by rw [append_nil, append_nil]; exact heq)
      simpa using hstacks
    | false =>
      simp only [hwa, hwb, if_true, Bool.false_eq_true, if_false] at heq
      exact absurd heq.symm (extended_ne_plain hb hvin' _ _)
  | false =>
    cases hwb : b.hasWitness with
    | true =>
      simp only [hwa, hwb, if_true, Bool.false_eq_true, if_false] at heq
      rw [← hsame.serializeBody, append_assoc] at heq
      exact absurd heq (extended_ne_plain ha hvin _ _)
    | false => rw [witnessStacks_eq_replicate hwa, witnessStacks_eq_replicate hwb, hsame.vin]

theorem hasWitness_eq : tx.hasWitness = tx.witnessStacks.any (!·.isEmpty) := by
  rw [witnessStacks, any_append, hasWitness]
  simp

/-- And are determined by them. -/
theorem serialize_true_congr (hsame : a.SameStripped b)
    (hstacks : a.witnessStacks = b.witnessStacks) : a.serialize true = b.serialize true := by
  have hwitness : a.serializeWitness = b.serializeWitness :=
    congrArg (List.flatMap (serVector serBytes)) hstacks
  rw [serialize, serialize, hasWitness_eq, hasWitness_eq, hstacks,
    hwitness, hsame.nVersion, hsame.nTime, hsame.serializeBody, hsame.serializeTail]

/-! ### Sizes -/

theorem serialize_true_of_not (h : a.hasWitness = false) :
    a.serialize true = a.serialize false := by
  rw [serialize, h]
  rfl

theorem length_serialize_true (h : a.hasWitness = true) :
    (a.serialize true).length = (a.serialize false).length + 2 + a.serializeWitness.length := by
  rw [serialize, h, serialize_false]
  simp only [Bool.true_and, if_true, length_append, length_cons, length_nil]
  omega

theorem length_serialize_le : (tx.serialize false).length ≤ (tx.serialize true).length := by
  cases h : tx.hasWitness with
  | true => rw [length_serialize_true h]; omega
  | false => rw [serialize_true_of_not h]

end

/-- Every stack takes a byte, and one that is not empty takes two. -/
theorem length_stacks_lt : ∀ {l : List (List (List UInt8))}, (∃ stack ∈ l, stack ≠ []) →
    l.length < (l.flatMap (serVector serBytes)).length := by
  have hpos : ∀ stack : List (List UInt8), 1 ≤ (serVector serBytes stack).length := fun stack => by
    rw [serVector, length_append]
    exact Nat.le_add_right_of_le (length_writeCompactSize_pos _)
  intro l
  induction l with
  | nil => rintro ⟨_, h, _⟩; cases h
  | cons stack l ih =>
    rintro ⟨stack', hmem, hne⟩
    have hhead := hpos stack
    have htail := length_le_flatMap fun stack (_ : stack ∈ l) => hpos stack
    rw [flatMap_cons, length_append, length_cons]
    rcases mem_cons.mp hmem with rfl | hmem
    · obtain ⟨item, items, rfl⟩ := exists_cons_of_ne_nil hne
      have hitem := length_writeCompactSize_pos item.length
      have hcount := length_writeCompactSize_pos (items.length + 1)
      rw [serVector, length_append, flatMap_cons, length_append, serBytes,
        length_append, length_cons] at hhead ⊢
      omega
    · have := ih ⟨stack', hmem, hne⟩
      omega

theorem length_serializeWitness_lt (h : a.hasWitness = true) :
    a.vin.length < a.serializeWitness.length := by
  rw [hasWitness_eq, any_eq_true] at h
  obtain ⟨stack, hmem, hne⟩ := h
  rw [← length_witnessStacks a]
  exact length_stacks_lt ⟨stack, hmem, by simpa using hne⟩

end CTransaction

/-- What a transaction adds to the weight of its block. -/
def txWeight (tx : CTransaction) : Nat :=
  (tx.serialize false).length * 3 + (tx.serialize true).length

/-- The weight is that of the header, the count and the signature, and of each transaction. -/
theorem CBlock.getBlockWeight_eq (block : CBlock) : block.getBlockWeight =
    (block.toCBlockHeader.serialize.length + (writeCompactSize block.vtx.length).length +
      (serBytes block.vchBlockSig).length) * 4 + (block.vtx.map txWeight).sum := by
  have hsum : (block.vtx.map txWeight).sum =
      (block.vtx.flatMap (CTransaction.serialize · false)).length * 3 +
        (block.vtx.flatMap (CTransaction.serialize · true)).length := by
    rw [length_flatMap, length_flatMap, ← sum_map_mul_right, ← sum_map_add]
    rfl
  rw [hsum, getBlockWeight, serialize, serialize]
  simp only [serVector, length_append]
  omega

theorem CBlock.size_le_weight (block : CBlock) :
    (block.serialize false).length * 4 ≤ block.getBlockWeight := by
  have hflat : (block.vtx.flatMap (CTransaction.serialize · false)).length ≤
      (block.vtx.flatMap (CTransaction.serialize · true)).length := by
    rw [length_flatMap, length_flatMap]
    exact sum_le_sum fun tx _ => tx.length_serialize_le
  rw [getBlockWeight, serialize, serialize]
  simp only [serVector, length_append]
  omega

/-! ## Headers -/

theorem CBlockHeader.serialize_inj {a b : CBlockHeader} (ha : IsInt32 a.nVersion)
    (hb : IsInt32 b.nVersion) (heq : a.serialize = b.serialize) : a = b := by
  obtain ⟨hversion, heq⟩ := determines_serInt32 ha hb heq
  obtain ⟨hprev, heq⟩ := determines_serUint256 trivial trivial heq
  obtain ⟨hroot, heq⟩ := determines_serUint256 trivial trivial heq
  obtain ⟨htime, heq⟩ := determines_serUInt32 trivial trivial heq
  obtain ⟨hbits, heq⟩ := determines_serUInt32 trivial trivial heq
  have hnonce := determines_serUInt32.view_eq trivial trivial heq
  cases a
  cases b
  simp only [CBlockHeader.mk.injEq]
  exact ⟨hversion, hprev, hroot, htime, hbits, hnonce⟩

end Chratos
