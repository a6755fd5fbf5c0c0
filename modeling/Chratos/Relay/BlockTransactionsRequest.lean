import Chratos.Primitives.Unserialize
import Mathlib.Data.List.Chain

/-!
# Chratos — asking for transactions of a block (`blockencodings.h`)

A `getblocktxn` message lists the positions of the wanted transactions in a block, each written as the
distance from the one before. The reader adds the distances up with an offset of 16 bits, and tests
each sum, but not the step past it: after position 65535 the offset is zero again.
-/

namespace Chratos

open Codec Option List

structure BlockTransactionsRequest where
  blockhash : Uint256
  indexes : List UInt16
  deriving DecidableEq

namespace BlockTransactionsRequest

/-- The writing loop; `least` is zero or one more than the index before. -/
def writeIndexes : Int → List UInt16 → List UInt8
  | _, [] => []
  | least, i :: rest =>
    writeCompactSize ((i.toNat - least) % 2 ^ 64).toNat ++ writeIndexes (i.toNat + 1) rest

def serialize (req : BlockTransactionsRequest) : List UInt8 :=
  serUint256 req.blockhash ++ (writeCompactSize req.indexes.length ++ writeIndexes 0 req.indexes)

def readIndex : Reader UInt16 := do
  let index ← readCompactSize
  if 0xffff < index then failure else pure (UInt16.ofNat index)

/-- The reading loop with `n` indexes left: the vector grows by at most 1000 at a time. -/
def readIndexes (n : Nat) : Reader (List UInt16) :=
  if n = 0 then pure []
  else do
    let chunk ← readMany readIndex (min 1000 n)
    let rest ← readIndexes (n - min 1000 n)
    pure (chunk ++ rest)
  termination_by n
  decreasing_by omega

/-- The distances are added up in place. -/
def addOffsets : UInt16 → List UInt16 → Option (List UInt16)
  | _, [] => some []
  | offset, i :: rest =>
    if 0xffff < i.toNat + offset.toNat then none
    else (addOffsets (i + offset + 1) rest).map ((i + offset) :: ·)

def unserialize : Reader BlockTransactionsRequest := do
  let blockhash ← unserUint256
  let indexes_size ← readCompactSize
  let indexes ← readIndexes indexes_size
  match addOffsets 0 indexes with
  | none => failure
  | some indexes => pure ⟨blockhash, indexes⟩

/-- The distances as they stand in the bytes, before they are added up. -/
def readDistances : Reader (List UInt16) := do
  let _ ← unserUint256
  let indexes_size ← readCompactSize
  readIndexes indexes_size

/-- The chunks make no difference to what is read. -/
theorem readIndexes_eq (n : Nat) : readIndexes n = readMany readIndex n := by
  induction n using Nat.strong_induction_on with
  | _ n ih =>
    rw [readIndexes]
    split
    · rename_i h
      rw [h, readMany]
    · rw [ih _ (by omega), ← readMany_add, Nat.add_sub_of_le (min_le_right _ _)]

/-- Increasing indexes are read as distances that add up to them again. -/
theorem reads_writeIndexes {xs : List UInt16} (hxs : xs.Pairwise (· < ·)) :
    ∀ least : Nat, least ≤ 65536 → (∀ x ∈ xs, least ≤ x.toNat) → least + xs.length ≤ 65536 ∧
      ∃ ds, Reads (readMany readIndex xs.length) (writeIndexes least xs) ds ∧
        addOffsets (UInt16.ofNat least) ds = some xs := by
  induction xs with
  | nil => exact fun least hle _ => ⟨hle, [], reads_pure [], rfl⟩
  | cons x xs ih =>
    intro least hle hleast
    obtain ⟨hlt, hxs⟩ := pairwise_cons.mp hxs
    have hx := hleast x (by simp)
    have hmax := x.toNat_lt
    obtain ⟨hlen, ds, hds, hadd⟩ :=
      ih hxs (x.toNat + 1) hmax fun y hy => UInt16.lt_iff_toNat_lt.mp (hlt y hy)
    refine ⟨by rw [length_cons]; omega, UInt16.ofNat (x.toNat - least) :: ds, ?_, ?_⟩
    · have hwritten : ((x.toNat - least : Int) % 2 ^ 64).toNat = x.toNat - least := by omega
      rw [writeIndexes, hwritten]
      have hread :
        Reads readIndex (writeCompactSize (x.toNat - least)) (UInt16.ofNat (x.toNat - least)) :=
        (reads_readCompactSize (by unfold MAX_SIZE; omega)).bind_nil (reads_check (by omega) _)
      exact hread.bind (hds.map _)
    · have hsum : UInt16.ofNat (x.toNat - least) + UInt16.ofNat least = x := by
        rw [← UInt16.ofNat_add, Nat.sub_add_cancel hx, UInt16.ofNat_toNat]
      have hone : x + 1 = UInt16.ofNat (x.toNat + 1) := by
        rfl
      rw [addOffsets, if_neg (by simp; omega), hsum, hone, hadd, map_some]

/-- Positions increase as long as the offset does not wrap, and the first wrap starts again at zero. -/
theorem addOffsets_increasing {ds xs : List UInt16} {offset : UInt16} :
    addOffsets offset ds = some xs → (∀ x ∈ xs.head?, offset ≤ x) ∧
      (xs.IsChain (· < ·) ↔ offset.toNat + (ds.map UInt16.toNat).sum + ds.length ≤ 65536) := by
  induction ds generalizing xs offset with
  | nil =>
    intro h
    cases h
    simpa using offset.toNat_lt.le
  | cons d ds ih =>
    intro h
    rw [addOffsets] at h
    split at h
    · cases h
    · rename_i hle
      obtain ⟨ys, hys, rfl⟩ := map_eq_some_iff.mp h
      obtain ⟨hhead, hiff⟩ := ih hys
      have hsum : (d + offset).toNat = d.toNat + offset.toNat := by
        rw [UInt16.toNat_add, Nat.mod_eq_of_lt (by omega)]
      have hnext : (d + offset + 1).toNat = (d.toNat + offset.toNat + 1) % 65536 := by
        rw [UInt16.toNat_add, hsum]
        rfl
      refine ⟨fun y hy => ?_, ?_⟩
      · cases hy
        rw [UInt16.le_iff_toNat_le]
        omega
      rw [isChain_cons, hiff, hnext, map_cons, sum_cons, length_cons]
      cases ds with
      | nil =>
        cases hys
        simp
        omega
      | cons e ds =>
        obtain ⟨y, ys, rfl⟩ : ∃ y zs, ys = y :: zs := by
          rw [addOffsets] at hys
          split at hys
          · cases hys
          · obtain ⟨zs, -, rfl⟩ := map_eq_some_iff.mp hys
            exact ⟨_, zs, rfl⟩
        have hy := UInt16.le_iff_toNat_le.mp (hhead y rfl)
        have hmax := y.toNat_lt
        simp only [head?_cons, mem_some_iff, forall_eq', UInt16.lt_iff_toNat_lt, hsum,
          length_cons]
        rw [hnext] at hy
        omega

/-- An accepted request has the distances of its bytes, added up. -/
theorem exists_distances {req : BlockTransactionsRequest} {bs rest : List UInt8}
    (h : unserialize bs = some (req, rest)) :
    ∃ ds, readDistances bs = some (ds, rest) ∧ addOffsets 0 ds = some req.indexes := by
  obtain ⟨⟨blockhash, bs₁⟩, hhash, h⟩ := bind_eq_some_iff.mp h
  obtain ⟨⟨n, bs₂⟩, hsize, h⟩ := bind_eq_some_iff.mp h
  obtain ⟨⟨ds, bs₃⟩, hds, h⟩ := bind_eq_some_iff.mp h
  dsimp only at hsize hds h
  cases hadd : addOffsets 0 ds with
  | none =>
    rw [hadd] at h
    cases h
  | some xs =>
    rw [hadd] at h
    cases h
    refine ⟨ds, ?_, hadd⟩
    simp [readDistances, StateT.bind, bind, hhash, hsize, hds]

/-- **The index codec**: a request is read back, and what is read is increasing exactly if the distances
in the bytes, each with the step past its position, stay within 65536. -/
theorem indexes_increasing_iff (req : BlockTransactionsRequest) (bs rest : List UInt8) :
    (req.indexes.Pairwise (· < ·) → Reads unserialize req.serialize req) ∧
      (unserialize bs = some (req, rest) → ∃ ds, readDistances bs = some (ds, rest) ∧
        (req.indexes.Pairwise (· < ·) ↔ (ds.map UInt16.toNat).sum + ds.length ≤ 65536)) := by
  constructor
  · intro hreq
    obtain ⟨hlen, ds, hds, hadd⟩ := reads_writeIndexes hreq 0 (by omega) fun _ _ => Nat.zero_le _
    refine (reads_unserUint256 _).bind ((reads_readCompactSize (by unfold MAX_SIZE; omega)).bind ?_)
    rw [readIndexes_eq]
    refine hds.bind_nil ?_
    rw [show addOffsets 0 ds = some req.indexes from hadd]
    exact reads_pure req
  · intro h
    obtain ⟨ds, hds, hadd⟩ := exists_distances h
    have hiff := (addOffsets_increasing hadd).2
    rw [isChain_iff_pairwise, UInt16.toNat_zero, zero_add] at hiff
    exact ⟨ds, hds, hiff⟩

/-- The bytes of the indexes 65535 and 0 are accepted. -/
theorem unserialize_decreasing :
    unserialize (serUint256 0 ++ [2, 253, 255, 255, 0]) = some (⟨0, [65535, 0]⟩, []) ∧
      ¬ [(65535 : UInt16), 0].Pairwise (· < ·) := by
  refine ⟨?_, by decide⟩
  unfold unserialize
  simp only [readIndexes_eq]
  decide +kernel

end BlockTransactionsRequest

end Chratos
