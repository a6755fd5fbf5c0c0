import Chratos.Lib.KeyStore
import Chratos.Primitives.Encoding
import Mathlib.Data.Prod.Lex

/-!
# Chratos — the spends a wallet knows of (`wallet/wallet.h`, `wallet/wallet.cpp`)

`mapTxSpends` is an ordered multimap: for an outpoint it has the transactions of the wallet that
spend it. Outpoints are ordered by the bytes of the hash and then by the index, so that the spends
of the outputs of one transaction lie together, and a loop that begins at the output 0 of a
transaction and goes on while the hash is that of the transaction goes through them
(`mem_spendersFrom_self`). Begun at another transaction that has spends, the loop ends at once
(`spendersFrom_of_ne`).
-/

namespace Chratos.Wallet

open Codec KeyStore List

/-- The order of outpoints. -/
def outpointKey (o : COutPoint) : Slice ×ₗ Nat := toLex (⟨serUint256 o.hash⟩, o.n.toNat)

theorem serUint256_inj {a b : Uint256} (h : serUint256 a = serUint256 b) : a = b :=
  determines_serUint256.view_eq trivial trivial h

/-- Between two outputs of a transaction there are only outputs of it. -/
theorem hash_of_between {a b o : COutPoint} (hab : outpointKey a ≤ outpointKey b)
    (hbo : outpointKey b ≤ outpointKey o) (hhash : a.hash = o.hash) : b.hash = o.hash := by
  have hfirst : (⟨serUint256 a.hash⟩ : Slice) ≤ ⟨serUint256 b.hash⟩ := Prod.Lex.monotone_fst _ _ hab
  have hlast : (⟨serUint256 b.hash⟩ : Slice) ≤ ⟨serUint256 o.hash⟩ := Prod.Lex.monotone_fst _ _ hbo
  rw [hhash] at hfirst
  exact serUint256_inj (congrArg Slice.bytes (le_antisymm hlast hfirst))

/-- The output 0 is the first. -/
theorem outpointKey_zero_le {o : COutPoint} {hash : Uint256} (h : o.hash = hash) :
    outpointKey ⟨hash, 0⟩ ≤ outpointKey o := by
  rw [← h]
  exact Prod.Lex.le_iff.mpr (.inr ⟨rfl, Nat.zero_le _⟩)

structure TxSpends where
  entries : List (COutPoint × Uint256)
  sorted : entries.Pairwise fun a b => outpointKey a.1 ≤ outpointKey b.1

namespace TxSpends

def empty : TxSpends := ⟨[], List.Pairwise.nil⟩

section

variable (m : TxSpends) (outpoint : COutPoint)

/-- A new spend goes behind those of the same outpoint. -/
def insert (wtxid : Uint256) : TxSpends where
  entries := m.entries.filter (fun e => outpointKey e.1 ≤ outpointKey outpoint) ++
    (outpoint, wtxid) :: m.entries.filter fun e => outpointKey outpoint < outpointKey e.1
  sorted := by
    rw [pairwise_append, pairwise_cons]
    refine ⟨m.sorted.filter _, ⟨fun e he => ?_, m.sorted.filter _⟩, fun a ha e he => ?_⟩
    · exact (of_decide_eq_true (mem_filter.mp he).2).le
    · have hle : outpointKey a.1 ≤ outpointKey outpoint := of_decide_eq_true (mem_filter.mp ha).2
      rcases mem_cons.mp he with rfl | he
      · exact hle
      · exact hle.trans (of_decide_eq_true (mem_filter.mp he).2).le

/-- All spends of an outpoint go. -/
def erase : TxSpends where
  entries := m.entries.filter fun e => e.1 ≠ outpoint
  sorted := m.sorted.filter _

def equalRange : List Uint256 :=
  (m.entries.filter fun e => e.1 = outpoint).map Prod.snd

def lowerBound : List (COutPoint × Uint256) :=
  m.entries.dropWhile fun e => outpointKey e.1 < outpointKey outpoint

/-- The loop over the outputs of `now`, begun at the first output of `first`. -/
def spendersFrom (first now : Uint256) : List Uint256 :=
  ((m.lowerBound ⟨first, 0⟩).takeWhile fun e => e.1.hash = now).map Prod.snd

end

variable {m : TxSpends} {wtxid : Uint256} {e : COutPoint × Uint256} {outpoint : COutPoint}

theorem mem_insert : e ∈ (m.insert outpoint wtxid).entries ↔ e = (outpoint, wtxid) ∨ e ∈ m.entries := by
  unfold insert
  rw [mem_append, mem_cons, mem_filter, mem_filter, decide_eq_true_eq, decide_eq_true_eq]
  have := le_or_gt (outpointKey e.1) (outpointKey outpoint)
  tauto

theorem mem_erase : e ∈ (m.erase outpoint).entries ↔ e ∈ m.entries ∧ e.1 ≠ outpoint := by
  unfold erase
  rw [mem_filter, decide_eq_true_eq]

theorem mem_equalRange : wtxid ∈ m.equalRange outpoint ↔ (outpoint, wtxid) ∈ m.entries := by
  unfold equalRange
  simp

/-- The inputs of a transaction, one after another. -/
def insertAll (m : TxSpends) (vin : List CTxIn) (wtxid : Uint256) : TxSpends :=
  vin.foldl (fun m txin => m.insert txin.prevout wtxid) m

def eraseAll (m : TxSpends) (vin : List CTxIn) : TxSpends :=
  vin.foldl (fun m txin => m.erase txin.prevout) m

variable {vin : List CTxIn} {now : Uint256}

theorem mem_insertAll :
    e ∈ (m.insertAll vin wtxid).entries ↔ e ∈ m.entries ∨ e.2 = wtxid ∧
      ∃ txin ∈ vin, txin.prevout = e.1 := by
  induction vin generalizing m with
  | nil => simp [insertAll]
  | cons txin vin ih =>
    show e ∈ (insertAll (m.insert txin.prevout wtxid) vin wtxid).entries ↔ _
    rw [ih, mem_insert, exists_mem_cons_iff]
    constructor
    · rintro ((rfl | he) | he)
      · exact .inr ⟨rfl, .inl rfl⟩
      · exact .inl he
      · exact .inr ⟨he.1, .inr he.2⟩
    · rintro (he | ⟨hwtxid, hprevout | he⟩)
      · exact .inl (.inr he)
      · exact .inl (.inl (Prod.ext hprevout.symm hwtxid))
      · exact .inr ⟨hwtxid, he⟩

theorem mem_eraseAll :
    e ∈ (m.eraseAll vin).entries ↔ e ∈ m.entries ∧ ∀ txin ∈ vin, txin.prevout ≠ e.1 := by
  induction vin generalizing m with
  | nil => simp [eraseAll]
  | cons txin vin ih =>
    show e ∈ (eraseAll (m.erase txin.prevout) vin).entries ↔ _
    rw [ih, mem_erase, forall_mem_cons, and_assoc, ne_comm]

/-! ## The spends of one transaction -/

theorem lowerBound_eq_filter (outpoint : COutPoint) :
    m.lowerBound outpoint = m.entries.filter fun e => outpointKey outpoint ≤ outpointKey e.1 :=
  dropWhile_eq_filter m.sorted (outpointKey outpoint)

/-- Begun at a transaction, the loop goes through its spends. -/
theorem mem_spendersFrom_self :
    wtxid ∈ m.spendersFrom now now ↔ ∃ o, o.hash = now ∧ (o, wtxid) ∈ m.entries := by
  have hscan : (m.lowerBound ⟨now, 0⟩).takeWhile (fun e => e.1.hash = now) =
      (m.lowerBound ⟨now, 0⟩).filter fun e => e.1.hash = now := by
    refine (takeWhile_eq_filter_iff ?_ fun _ _ h => h).mpr fun e he => ?_
    · rw [lowerBound_eq_filter, pairwise_filter]
      refine m.sorted.imp ?_
      intro a b hab ha _ hb
      have hb : b.1.hash = now := of_decide_eq_true hb
      exact decide_eq_true ((hash_of_between (of_decide_eq_true ha) hab hb.symm).trans hb)
    · have := find?_some he
      rwa [Bool.not_eq_eq_eq_not, Bool.not_true] at this
  unfold spendersFrom
  rw [hscan, lowerBound_eq_filter]
  constructor
  · intro h
    obtain ⟨e, he, rfl⟩ := mem_map.mp h
    obtain ⟨he, hhash⟩ := mem_filter.mp he
    exact ⟨e.1, of_decide_eq_true hhash, (mem_filter.mp he).1⟩
  · rintro ⟨o, hhash, ho⟩
    refine mem_map.mpr ⟨(o, wtxid), mem_filter.mpr ⟨mem_filter.mpr ⟨ho, ?_⟩, ?_⟩, rfl⟩
    · exact decide_eq_true (outpointKey_zero_le hhash)
    · exact decide_eq_true hhash

/-- Begun at another transaction with spends, the loop goes through none. -/
theorem spendersFrom_of_ne {first : Uint256} (hne : first ≠ now) (he : e ∈ m.entries)
    (hhash : e.1.hash = first) : m.spendersFrom first now = [] := by
  unfold spendersFrom
  rw [map_eq_nil_iff]
  -- the first entry of the loop is at or before a spend of `first`
  have hmem : e ∈ m.lowerBound ⟨first, 0⟩ := by
    rw [lowerBound_eq_filter]
    exact mem_filter.mpr ⟨he, decide_eq_true (outpointKey_zero_le hhash)⟩
  have hsorted : (m.lowerBound ⟨first, 0⟩).Pairwise fun a b => outpointKey a.1 ≤ outpointKey b.1 :=
    m.sorted.sublist (dropWhile_sublist _)
  have hfrom : ∀ a ∈ m.lowerBound ⟨first, 0⟩, outpointKey ⟨first, 0⟩ ≤ outpointKey a.1 := by
    rw [lowerBound_eq_filter]
    exact fun a ha => of_decide_eq_true (mem_filter.mp ha).2
  cases hscan : m.lowerBound ⟨first, 0⟩ with
  | nil => rfl
  | cons a rest =>
    rw [hscan] at hmem hsorted hfrom
    have hle : outpointKey a.1 ≤ outpointKey e.1 := by
      rcases mem_cons.mp hmem with rfl | hmem
      · exact le_rfl
      · exact (pairwise_cons.mp hsorted).1 e hmem
    have ha : a.1.hash = first := (hash_of_between (hfrom a mem_cons_self) hle hhash.symm).trans hhash
    apply takeWhile_cons_of_neg
    rw [decide_eq_true_eq, ha]
    exact hne

end TxSpends

end Chratos.Wallet
