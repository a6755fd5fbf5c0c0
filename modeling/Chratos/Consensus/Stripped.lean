import Chratos.Consensus.ContextualCheckBlock
import Chratos.Consensus.MerkleRoot

/-!
# Chratos — checks that do not see witnesses

`CheckBlock` says of itself that it may not use witness data, since a block is not yet known to have
the witnesses its header stands for. Here that is a statement: a block and the block without its
witnesses (`CBlock.stripped`) get the same verdict (`checkBlock_stripped`), and so they do from the
first part of `ContextualCheckBlock` (`checkPlacement_stripped`).

The merkle root then stands for exactly this much of a block: two blocks that are not flagged as
mutated and have one root are the same but for their witnesses (`stripped_eq_of_merkleRoot`). The
first transaction must not be mistaken for a node of the tree; that of a checked block cannot be
(`length_coinbase`).
-/

namespace Chratos

open Outcome Codec List CTransaction CBlock

/-- The transaction without its witnesses. -/
def CTransaction.stripped (tx : CTransaction) : CTransaction :=
  { tx with wit := [], wit_le := Nat.zero_le _ }

/-- The block without its witnesses. -/
def CBlock.stripped (block : CBlock) : CBlock :=
  { block with vtx := block.vtx.map CTransaction.stripped }

namespace CTransaction

variable (tx : CTransaction)

@[simp] theorem stripped_isCoinBase : tx.stripped.isCoinBase = tx.isCoinBase := rfl
@[simp] theorem stripped_vin : tx.stripped.vin = tx.vin := rfl

@[simp] theorem stripped_serialize : tx.stripped.serialize false = tx.serialize false := rfl

end CTransaction

namespace CBlock

variable (block : CBlock)

@[simp] theorem stripped_vtx : block.stripped.vtx = block.vtx.map CTransaction.stripped := rfl
@[simp] theorem stripped_toCBlockHeader : block.stripped.toCBlockHeader = block.toCBlockHeader := rfl
@[simp] theorem stripped_vchBlockSig : block.stripped.vchBlockSig = block.vchBlockSig := rfl
@[simp] theorem stripped_fChecked : block.stripped.fChecked = block.fChecked := rfl

@[simp] theorem stripped_isProofOfStake : block.stripped.isProofOfStake = block.isProofOfStake := by
  rw [isProofOfStake, isProofOfStake, stripped_vtx]
  match block.vtx with
  | [] => rfl
  | [_] => rfl
  | _ :: _ :: _ => rfl

@[simp] theorem stripped_isProofOfWork : block.stripped.isProofOfWork = block.isProofOfWork := by
  rw [isProofOfWork, isProofOfWork, stripped_isProofOfStake]

@[simp] theorem stripped_serialize : block.stripped.serialize false = block.serialize false := by
  simp [serialize, serVector, flatMap_map]

end CBlock

section

variable (env : Env) (block : CBlock) (state : CValidationState)

@[simp] theorem stripped_blockMerkleRoot (hash256 : List UInt8 → Uint256) :
    blockMerkleRoot hash256 block.stripped = blockMerkleRoot hash256 block := by
  rw [blockMerkleRoot, blockMerkleRoot, stripped_vtx, map_map]
  rfl

@[simp] theorem checkMerkleRoot_stripped :
    checkMerkleRoot env block.stripped state = checkMerkleRoot env block state := by
  rw [checkMerkleRoot, checkMerkleRoot, stripped_blockMerkleRoot]
  rfl

@[simp] theorem checkBlockHeader_stripped :
    checkBlockHeader env block.stripped state = checkBlockHeader env block state := rfl

@[simp] theorem checkBlockSignature_stripped :
    checkBlockSignature env block.stripped = checkBlockSignature env block := by
  rw [checkBlockSignature, checkBlockSignature, stripped_isProofOfWork,
    stripped_vtx, getElem?_map, Option.bind_map]
  rfl

@[simp] theorem checkShape_stripped : checkShape block.stripped state = checkShape block state := by
  simp only [checkShape, CBlock.stripped_isProofOfStake, CBlock.stripped_serialize,
    stripped_vtx, ← map_drop, any_map, head?_map, Option.any_map,
    isEmpty_map, length_map]
  rfl

@[simp] theorem checkTransactions_stripped :
    checkTransactions block.stripped state = checkTransactions block state := by
  rw [checkTransactions, checkTransactions, stripped_vtx, forM_eq_forM, forM_map]
  rfl

/-- **`CheckBlock` does not see witnesses.** -/
theorem checkBlock_stripped (fCheckMerkleRoot fCheckSig : Bool) :
    checkBlock env block.stripped state fCheckMerkleRoot fCheckSig =
      checkBlock env block state fCheckMerkleRoot fCheckSig := by
  have hsigops : (block.stripped.vtx.map getLegacySigOpCount).sum =
      (block.vtx.map getLegacySigOpCount).sum := by
    rw [stripped_vtx, map_map]
    rfl
  rw [checkBlock, checkBlock, checkBlockBody, checkBlockBody, hsigops]
  simp

theorem checkPlacement_stripped (chain : PrevChain) (nHeight : Nat) :
    checkPlacement env block.stripped state chain nHeight =
      checkPlacement env block state chain nHeight := by
  simp only [checkPlacement, stripped_isProofOfStake, stripped_isProofOfWork,
    stripped_vtx, stripped_toCBlockHeader, ← map_drop, head?_map,
    Option.any_map, all_map]
  rfl

end

/-! ## What the merkle root stands for -/

/-- A transaction as it is read off the wire: the free text is read from version 2 on. -/
@[mk_iff]
structure CTransaction.OnWire (tx : CTransaction) : Prop where
  sized : tx.Sized
  strDZeel : tx.nVersion < 2 → tx.strDZeel = []

instance (tx : CTransaction) : Decidable tx.OnWire := decidable_of_iff' _ tx.onWire_iff

theorem CTransaction.OnWire.stripped_eq {a b : CTransaction} (ha : a.OnWire) (hb : b.OnWire)
    (heq : a.serialize false = b.serialize false) : a.stripped = b.stripped := by
  have hsame := serialize_inj ha.sized hb.sized heq
  have htext : a.strDZeel = b.strDZeel := by
    by_cases hversion : 2 ≤ a.nVersion
    · exact hsame.strDZeel hversion
    · rw [ha.strDZeel (by omega), hb.strDZeel (by rw [← hsame.nVersion]; omega)]
  simp only [stripped, mk.injEq]
  exact ⟨hsame.nVersion, hsame.nTime, hsame.vin, hsame.vout, trivial, hsame.nLockTime, htext⟩

variable {α β γ : Type}

theorem map_eq_map_iff {f : α → γ} {g : β → γ} {xs : List α} {ys : List β} :
    xs.map f = ys.map g ↔ List.Forall₂ (fun x y => f x = g y) xs ys := by
  rw [← forall₂_eq_eq_eq, forall₂_map_left_iff, forall₂_map_right_iff]

/-- A list is determined by another view of its items if each item is. -/
theorem map_eq_of_map_eq {f : α → β} {g : α → γ} {xs ys : List α}
    (h : ∀ x ∈ xs, ∀ y ∈ ys, f x = f y → g x = g y) (heq : xs.map f = ys.map f) :
      xs.map g = ys.map g := by
  rw [map_eq_map_iff, forall₂_iff_zip] at heq ⊢
  refine ⟨heq.1, fun hxy => ?_⟩
  obtain ⟨hx, hy⟩ := of_mem_zip hxy
  exact h _ hx _ hy (heq.2 hxy)

/-- Two views of the items, taken together. -/
theorem map_prodMk_eq {f : α → β} {g : α → γ} {xs ys : List α} (hf : xs.map f = ys.map f)
    (hg : xs.map g = ys.map g) : xs.map (fun x => (f x, g x)) = ys.map (fun x => (f x, g x)) := by
  rw [← zip_map', ← zip_map', hf, hg]

/-- The strings that are hashed for the merkle root. -/
def CBlock.txStrings (hash256 : List UInt8 → Uint256) (block : CBlock) : List (List UInt8) :=
  block.vtx.map (CTransaction.serialize · false) ++
    merkleStrings hash256 (block.vtx.map (CTransaction.getHash hash256))

/-- **One merkle root, one list of transactions**, but for the witnesses. -/
theorem stripped_eq_of_merkleRoot {hash256 : List UInt8 → Uint256} {S : Set (List UInt8)}
    {a b : CBlock} (hinj : S.InjOn hash256) (ha : ∀ s ∈ a.txStrings hash256, s ∈ S)
    (hb : ∀ s ∈ b.txStrings hash256, s ∈ S) (hwirea : ∀ tx ∈ a.vtx, tx.OnWire)
    (hwireb : ∀ tx ∈ b.vtx, tx.OnWire)
    (hheada : ∃ tx, a.vtx.head? = some tx ∧ (tx.serialize false).length ≠ 64)
    (hheadb : ∃ tx, b.vtx.head? = some tx ∧ (tx.serialize false).length ≠ 64)
    (hflaga : (blockMerkleRoot hash256 a).2 = false)
    (hflagb : (blockMerkleRoot hash256 b).2 = false)
    (heq : (blockMerkleRoot hash256 a).1 = (blockMerkleRoot hash256 b).1) :
    a.vtx.map CTransaction.stripped = b.vtx.map CTransaction.stripped := by
  have hmem : ∀ {block : CBlock}, (∀ s ∈ block.txStrings hash256, s ∈ S) →
      ∀ tx ∈ block.vtx, tx.serialize false ∈ S := fun h tx htx =>
    h _ (mem_append_left _ (mem_map_of_mem htx))
  have hfirst : ∀ {block : CBlock}, (∀ s ∈ block.txStrings hash256, s ∈ S) →
      (∃ tx, block.vtx.head? = some tx ∧ (tx.serialize false).length ≠ 64) →
      ∃ s ∈ S, s.length ≠ 64 ∧
        (block.vtx.map (getHash hash256)).head? = some (hash256 s) := by
    rintro block h ⟨tx, htx, hlen⟩
    exact ⟨_, hmem h tx (mem_of_head? htx), hlen, by rw [head?_map, htx]; rfl⟩
  have hhashes := computeMerkleRoot_inj hinj (fun s hs => ha s (mem_append_right _ hs))
    (fun s hs => hb s (mem_append_right _ hs)) (hfirst ha hheada) (hfirst hb hheadb)
    hflaga hflagb heq
  refine map_eq_of_map_eq (fun x hx y hy hhash => ?_) hhashes
  exact (hwirea x hx).stripped_eq (hwireb y hy) (hinj (hmem ha x hx) (hmem hb y hy) hhash)

section

variable {tx : CTransaction} {state : CValidationState} (hcb : tx.isCoinBase = true)
  (h : checkTransaction tx state = .ok ())
include hcb h

/-- The coinbase's script is not empty. -/
theorem checkTransaction_scriptSig : ∀ i ∈ tx.vin, 2 ≤ i.scriptSig.length := by
  unfold checkTransaction at h
  simp only [bind_eq_ok, rejectIf_eq_ok, exists_unit] at h
  obtain ⟨-, -, -, -, -, -, -, hlast⟩ := h
  rw [if_pos hcb, rejectIf_eq_ok, any_eq_false] at hlast
  intro i hi
  have := hlast i hi
  simp only [Bool.or_eq_true, decide_eq_true_eq, not_or] at this
  omega

/-- A checked coinbase is longer than a node of the tree. -/
theorem length_coinbase : 64 < (tx.serialize false).length := by
  obtain ⟨i, hvin, -⟩ := isCoinBase_iff.mp hcb
  have hscript : 2 ≤ i.scriptSig.length := checkTransaction_scriptSig hcb h i (by rw [hvin]; simp)
  obtain ⟨o, outs, hvout⟩ := exists_cons_of_ne_nil (checkTransaction_spec h).vout_ne
  have hcount := length_writeCompactSize_pos i.scriptSig.length
  have hcount' := length_writeCompactSize_pos (outs.length + 1)
  rw [serialize_false, serializeBody, serializeTail, hvin,
    hvout]
  simp only [serVector, CTxIn.serialize, COutPoint.serialize, CTxOut.serialize, serBytes, serInt32,
    serUInt32, serUint256, flatMap_cons, flatMap_nil, length_append, length_leBytes,
    length_cons, length_nil]
  have hone : (writeCompactSize (0 + 1)).length = 1 := rfl
  omega

end

end Chratos
