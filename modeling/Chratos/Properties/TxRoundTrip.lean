import Chratos.Primitives.Unserialize

/-!
# Chratos — the transaction codec

A transaction with an input is read back from its bytes, witnesses and free text included, provided
that the reader accepts its lengths; the bytes without witnesses do not depend on the witnesses.
-/

namespace Chratos

open Codec List CTransaction

/-- A transaction is read back exactly when no length in it is beyond `MAX_SIZE`, and two transactions
that differ in their witnesses only have the same bytes without them and the same hash. -/
theorem transaction_roundTrip :
    (∀ tx : CTransaction, IsInt32 tx.nVersion → (∀ o ∈ tx.vout, IsInt64 o.nValue) → tx.vin ≠ [] →
      (tx.nVersion < 2 → tx.strDZeel = []) → tx.WitnessComplete →
      (Reads (CTransaction.unserialize true) (tx.serialize true) tx ↔ tx.Bounded)) ∧
    ∀ a b : CTransaction, a.SameStripped b → a.serialize false = b.serialize false ∧
      ∀ hash256, a.getHash hash256 = b.getHash hash256 := by
  constructor
  · intro tx hversion hvalues hvin htext hwit
    constructor
    · intro hreads
      exact yields_unserialize true (hreads [])
    · intro hbounded
      exact reads_unserialize hbounded hversion hvalues hvin htext hwit
  · intro a b hsame
    have hbytes := hsame.serialize
    exact ⟨hbytes, fun hash256 => congrArg hash256 hbytes⟩

/-- One input, one output, free text, and a witness for the input or none. -/
def textTx (wit : List (List (List UInt8))) (hwit : wit.length ≤ 1) : CTransaction where
  nVersion := 2
  nTime := 7
  vin := [⟨⟨1, 0⟩, [], 0⟩]
  vout := [⟨5, [OP_CHECKSIG]⟩]
  wit := wit
  nLockTime := 0
  strDZeel := [104, 105]
  wit_le := hwit

theorem transaction_roundTrip_text :
    Reads (CTransaction.unserialize true) ((textTx [[[1]]] le_rfl).serialize true)
        (textTx [[[1]]] le_rfl) ∧
      (textTx [[[1]]] le_rfl).serialize false = (textTx [] (Nat.zero_le 1)).serialize false := by
  constructor
  · refine (transaction_roundTrip.1 (textTx [[[1]]] le_rfl) ⟨by decide, by decide⟩ ?_ (by decide)
      (by decide) (by decide)).mpr ⟨?_, ?_, ?_, ?_, ?_, ?_⟩
    all_goals decide
  · exact (transaction_roundTrip.2 _ _ ⟨rfl, rfl, rfl, rfl, rfl, fun _ => rfl⟩).1

/-- One input whose script has a byte more than the limit. -/
def oversizedTx : CTransaction where
  nVersion := 1
  nTime := 7
  vin := [⟨⟨1, 0⟩, List.replicate (MAX_SIZE + 1) 0, 0⟩]
  vout := [⟨5, []⟩]
  nLockTime := 0

/-- It is written, and what is written is not read as it. -/
theorem oversized_not_read :
    oversizedTx.vin ≠ [] ∧ oversizedTx.vout ≠ [] ∧ oversizedTx.strDZeel = [] ∧
      oversizedTx.wit = [] ∧
      ∀ rest, CTransaction.unserialize true (oversizedTx.serialize true) ≠ some
        (oversizedTx, rest) := by
  refine ⟨cons_ne_nil _ _, cons_ne_nil _ _, rfl, rfl, fun rest hread => ?_⟩
  have hbounded := yields_unserialize true hread
  have hscript := hbounded.vin ⟨⟨1, 0⟩, replicate (MAX_SIZE + 1) 0, 0⟩ mem_cons_self
  rw [length_replicate] at hscript
  omega

end Chratos
