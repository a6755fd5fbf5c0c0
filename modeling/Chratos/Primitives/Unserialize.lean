import Chratos.Primitives.Encoding

/-!
# Chratos — reading a transaction (`primitives/transaction.h`)

The reading half of `SerializeTransaction`. The extended format is recognised by an empty vector of
inputs; the byte after it says what else is there. Every length is read by `ReadCompactSize`, which
refuses anything beyond `MAX_SIZE`; the writer has no such limit.
-/

namespace Chratos

open Codec List CTxOut CTxIn

/-! ## Fields -/

def unserBytes : Reader (List UInt8) := do
  let n ← readCompactSize
  readBytes n

theorem reads_unserBytes {bs : List UInt8} (hlen : bs.length ≤ MAX_SIZE) :
    Reads unserBytes (serBytes bs) bs :=
  (reads_readCompactSize hlen).bind (reads_readBytes rfl)

theorem yields_unserBytes : Yields unserBytes fun bs => bs.length ≤ MAX_SIZE :=
  yields_readCompactSize.bind fun n hn => fun _ _ _ hread => (yields_readBytes n hread).trans_le hn

/-! ## Inputs and outputs -/

def CTxIn.unserialize : Reader CTxIn := do
  let prevout ← COutPoint.unserialize
  let scriptSig ← unserBytes
  let nSequence ← unserUInt32
  pure ⟨prevout, scriptSig, nSequence⟩

def CTxOut.unserialize : Reader CTxOut := do
  let n ← readLE 8
  let scriptPubKey ← unserBytes
  pure ⟨int64 n, scriptPubKey⟩

theorem CTxIn.reads_unserialize {i : CTxIn} (hlen : i.scriptSig.length ≤ MAX_SIZE) :
    Reads CTxIn.unserialize i.serialize i := by
  exact (COutPoint.reads_unserialize i.prevout).bind ((reads_unserBytes hlen).bind
    ((reads_unserUInt32 i.nSequence).map (mk i.prevout i.scriptSig)))

theorem CTxIn.yields_unserialize :
    Yields CTxIn.unserialize fun i => i.scriptSig.length ≤ MAX_SIZE :=
  (yields_true _).bind fun _ _ => yields_unserBytes.bind fun _ hlen => (yields_true _).bind fun _ _ =>
    yields_pure hlen

theorem CTxOut.reads_unserialize {o : CTxOut} (hvalue : IsInt64 o.nValue)
    (hlen : o.scriptPubKey.length ≤ MAX_SIZE) : Reads CTxOut.unserialize o.serialize o := by
  have hlt : (o.nValue % 2 ^ 64).toNat < 256 ^ 8 := by omega
  have hself : int64 ((o.nValue % 2 ^ 64).toNat : Int) = o.nValue := by
    unfold IsInt64 at hvalue
    rw [int64, Int.bmod_def]
    split <;> omega
  refine (reads_readLE hlt).bind ?_
  rw [hself]
  exact (reads_unserBytes hlen).map (mk o.nValue)

theorem CTxOut.yields_unserialize :
    Yields CTxOut.unserialize fun o => o.scriptPubKey.length ≤ MAX_SIZE :=
  (yields_true _).bind fun _ _ => yields_unserBytes.bind fun _ hlen => yields_pure hlen

/-! ## Transactions -/

namespace CTransaction

variable (fWitness : Bool)

/-- Inputs, outputs and flags. -/
def unserializeBody : Reader (List CTxIn × List CTxOut × UInt8) := do
  let vin ← unserVector CTxIn.unserialize
  if vin.isEmpty && fWitness then
    -- a dummy or an empty vin
    let flags ← readByte
    if flags ≠ 0 then
      let vin ← unserVector CTxIn.unserialize
      let vout ← unserVector CTxOut.unserialize
      pure (vin, vout, flags)
    else pure (vin, [], flags)
  else
    let vout ← unserVector CTxOut.unserialize
    pure (vin, vout, 0)

/-- One witness stack for each input. A record of empty stacks only is refused. -/
def unserializeWitness (nVin : Nat) : Reader (List (List (List UInt8))) := do
  let vtxinwit ← readMany (unserVector unserBytes) nVin
  if vtxinwit.all List.isEmpty then failure else pure vtxinwit

/-- The witnesses if their flag is set, and the flags that are left. -/
def unserializeFlagged (nVin : Nat) (flags : UInt8) : Reader (List (List (List UInt8)) × UInt8) :=
  if flags &&& 1 ≠ 0 ∧ fWitness then do
    let wit ← unserializeWitness nVin
    pure (wit, flags ^^^ 1)
  else pure ([], flags)

def unserializeText (nVersion : Int) : Reader (List UInt8) :=
  if 2 ≤ nVersion then unserBytes else pure []

/-- `SerializeTransaction` into an empty transaction; `fWitness` is the absence of the no-witness
flag. -/
def unserialize : Reader CTransaction := do
  let nVersion ← unserInt32
  let nTime ← unserUInt32
  let (vin, vout, flags) ← unserializeBody fWitness
  let (wit, flags) ← unserializeFlagged fWitness vin.length flags
  -- unknown transaction optional data
  if flags ≠ 0 then failure
  else do
    let nLockTime ← unserUInt32
    let strDZeel ← unserializeText nVersion
    -- there are as many stacks as inputs or none, so this is never refused
    if hwit : wit.length ≤ vin.length then
      pure {
        nVersion := nVersion
        nTime := nTime
        vin := vin
        vout := vout
        wit := wit
        nLockTime := nLockTime
        strDZeel := strDZeel
        wit_le := hwit }
    else failure

/-- No vector, script or string is longer than what `ReadCompactSize` lets through. -/
structure Bounded (tx : CTransaction) : Prop where
  vin_le : tx.vin.length ≤ MAX_SIZE
  vin : ∀ i ∈ tx.vin, i.scriptSig.length ≤ MAX_SIZE
  vout_le : tx.vout.length ≤ MAX_SIZE
  vout : ∀ o ∈ tx.vout, o.scriptPubKey.length ≤ MAX_SIZE
  wit : ∀ stack ∈ tx.wit, stack.length ≤ MAX_SIZE ∧ ∀ item ∈ stack, item.length ≤ MAX_SIZE
  strDZeel_le : tx.strDZeel.length ≤ MAX_SIZE

/-- A witness that is absent, or has a stack for each input of which one is not empty. -/
def WitnessComplete (tx : CTransaction) : Prop :=
  tx.wit = [] ∨ tx.wit.length = tx.vin.length ∧ tx.hasWitness = true

instance (tx : CTransaction) : Decidable tx.WitnessComplete := inferInstanceAs (Decidable (_ ∨ _))

variable {tx : CTransaction}

/-! ### What is read back -/

section

variable (h : tx.Bounded)
include h

theorem reads_vin :
    Reads (unserVector CTxIn.unserialize) (serVector CTxIn.serialize tx.vin) tx.vin := by
  have hread := reads_unserVector (g := fun i : CTxIn => i) h.vin_le fun i hi =>
    reads_unserialize (h.vin i hi)
  rwa [map_id'] at hread

section

variable (hvalues : ∀ o ∈ tx.vout, IsInt64 o.nValue)

include hvalues

theorem reads_vout :
    Reads (unserVector CTxOut.unserialize) (serVector CTxOut.serialize tx.vout) tx.vout := by
  have hread := reads_unserVector (g := fun o : CTxOut => o) h.vout_le fun o ho =>
    reads_unserialize (hvalues o ho) (h.vout o ho)
  rwa [map_id'] at hread

/-- The extended format: an empty vector, the flag, inputs and outputs. -/
theorem reads_unserializeBody_extended :
    Reads (unserializeBody true) ([0, 1] ++ tx.serializeBody) (tx.vin, tx.vout, 1) := by
  have hdummy : Reads (unserVector CTxIn.unserialize) [0] [] :=
    (reads_readCompactSize (Nat.zero_le _)).bind_nil (reads_pure [])
  have hflag := reads_readByte 1
  refine hdummy.bind (hflag.bind ?_)
  exact (reads_vin h).bind ((reads_vout h hvalues).map fun vout => (tx.vin, vout, (1 : UInt8)))

/-- The plain format: there is an input, so no flags follow. -/
theorem reads_unserializeBody_plain (hvin : tx.vin ≠ []) (fWitness : Bool) :
    Reads (unserializeBody fWitness) tx.serializeBody (tx.vin, tx.vout, 0) := by
  have hnot : ¬ (tx.vin.isEmpty && fWitness) = true := by
    rw [isEmpty_eq_false_iff.mpr hvin]
    exact Bool.false_ne_true
  refine (reads_vin h).bind ?_
  rw [if_neg hnot]
  exact (reads_vout h hvalues).map fun vout => (tx.vin, vout, (0 : UInt8))

end

theorem reads_unserializeWitness (hlen : tx.wit.length = tx.vin.length)
    (hwitness : tx.hasWitness = true) :
    Reads (unserializeWitness tx.vin.length) tx.serializeWitness tx.wit := by
  have hstacks : tx.serializeWitness = tx.wit.flatMap (serVector serBytes) := by
    rw [serializeWitness, hlen, Nat.sub_self, replicate_zero, append_nil]
  have hstack : ∀ stack ∈ tx.wit, Reads (unserVector unserBytes) (serVector serBytes stack) stack := by
    intro stack hmem
    have hread := reads_unserVector (g := fun item : List UInt8 => item) (h.wit stack hmem).1
      fun item hitem => reads_unserBytes ((h.wit stack hmem).2 item hitem)
    rwa [map_id'] at hread
  have hread := Reads.many (g := fun stack : List (List UInt8) => stack) hstack
  rw [map_id', hlen] at hread
  have hnot : ¬ tx.wit.all isEmpty = true := by
    intro hall
    obtain ⟨stack, hmem, hne⟩ := any_eq_true.mp hwitness
    rw [all_eq_true.mp hall stack hmem] at hne
    cases hne
  rw [hstacks]
  exact hread.bind_nil (reads_check hnot _)

theorem reads_unserializeText (htext : tx.nVersion < 2 → tx.strDZeel = []) :
    Reads (unserializeText tx.nVersion) (if 2 ≤ tx.nVersion then serBytes tx.strDZeel else [])
      tx.strDZeel := by
  unfold unserializeText
  by_cases hv : 2 ≤ tx.nVersion
  · rw [if_pos hv, if_pos hv]
    exact reads_unserBytes h.strDZeel_le
  · rw [if_neg hv, if_neg hv, htext (by omega)]
    exact reads_pure []

/-- **What has been written is read back**, to the last byte. -/
theorem reads_unserialize (hversion : IsInt32 tx.nVersion)
    (hvalues : ∀ o ∈ tx.vout, IsInt64 o.nValue) (hvin : tx.vin ≠ [])
    (htext : tx.nVersion < 2 → tx.strDZeel = []) (hwit : tx.WitnessComplete) :
    Reads (CTransaction.unserialize true) (tx.serialize true) tx := by
  -- the last fields, once inputs, outputs and witnesses are known
  have htail : Reads (do
      let nLockTime ← unserUInt32
      let strDZeel ← unserializeText tx.nVersion
      if hwit : tx.wit.length ≤ tx.vin.length then
        pure ⟨tx.nVersion, tx.nTime, tx.vin, tx.vout, tx.wit, nLockTime, strDZeel, hwit⟩
      else failure : Reader CTransaction) tx.serializeTail tx := by
    refine (reads_unserUInt32 tx.nLockTime).bind ((reads_unserializeText h htext).bind_nil ?_)
    rw [dif_pos tx.wit_le]
    exact reads_pure tx
  have hhead := reads_unserUInt32 tx.nTime
  cases hhas : tx.hasWitness with
  | true =>
    have hlen : tx.wit.length = tx.vin.length := by
      rcases hwit with hnil | hfull
      · rw [hasWitness, hnil] at hhas
        cases hhas
      · exact hfull.1
    have hbytes : tx.serialize true = serInt32 tx.nVersion ++ (serUInt32 tx.nTime ++
        (([0, 1] ++ tx.serializeBody) ++ (tx.serializeWitness ++ tx.serializeTail))) := by
      rw [serialize, hhas, Bool.true_and, if_pos rfl]
      simp
    rw [hbytes]
    have hflagged : Reads (unserializeFlagged true tx.vin.length 1) tx.serializeWitness (tx.wit, 0) :=
      (reads_unserializeWitness h hlen hhas).map fun wit => (wit, (0 : UInt8))
    exact (reads_unserInt32 hversion).bind (hhead.bind
      ((reads_unserializeBody_extended h hvalues).bind (hflagged.bind htail)))
  | false =>
    have hnil : tx.wit = [] := by
      rcases hwit with hnil | hfull
      · exact hnil
      · rw [hhas] at hfull
        cases hfull.2
    have hbytes : tx.serialize true = serInt32 tx.nVersion ++ (serUInt32 tx.nTime ++
        (tx.serializeBody ++ ([] ++ tx.serializeTail))) := by
      rw [serialize_true_of_not hhas, serialize_false]
      simp
    rw [hbytes]
    have hflagged : Reads (unserializeFlagged true tx.vin.length 0) [] (tx.wit, 0) := by
      rw [hnil]
      exact reads_pure ([], 0)
    exact (reads_unserInt32 hversion).bind (hhead.bind
      ((reads_unserializeBody_plain h hvalues hvin true).bind (hflagged.bind htail)))

end

/-! ### What can be read at all -/

theorem yields_vin : Yields (unserVector CTxIn.unserialize) fun vin =>
    vin.length ≤ MAX_SIZE ∧ ∀ i ∈ vin, i.scriptSig.length ≤ MAX_SIZE :=
  yields_unserVector yields_unserialize

theorem yields_vout : Yields (unserVector CTxOut.unserialize) fun vout =>
    vout.length ≤ MAX_SIZE ∧ ∀ o ∈ vout, o.scriptPubKey.length ≤ MAX_SIZE :=
  yields_unserVector yields_unserialize

theorem yields_unserializeBody : Yields (unserializeBody fWitness) fun body =>
    (body.1.length ≤ MAX_SIZE ∧ ∀ i ∈ body.1, i.scriptSig.length ≤ MAX_SIZE) ∧
      body.2.1.length ≤ MAX_SIZE ∧ ∀ o ∈ body.2.1, o.scriptPubKey.length ≤ MAX_SIZE := by
  refine yields_vin.bind fun vin hvin => yields_ite (fun _ => ?_) fun _ => ?_
  · refine (yields_true _).bind fun flags _ => yields_ite (fun _ => ?_) fun _ => ?_
    · exact yields_vin.bind fun vin hvin => yields_vout.bind fun vout hvout => yields_pure ⟨hvin, hvout⟩
    · exact yields_pure ⟨hvin, Nat.zero_le _, nofun⟩
  · exact yields_vout.bind fun vout hvout => yields_pure ⟨hvin, hvout⟩

theorem yields_unserializeFlagged (nVin : Nat) (flags : UInt8) :
    Yields (unserializeFlagged fWitness nVin flags) fun r =>
      ∀ stack ∈ r.1, stack.length ≤ MAX_SIZE ∧ ∀ item ∈ stack, item.length ≤ MAX_SIZE := by
  have hstacks := (yields_unserVector yields_unserBytes).many nVin
  refine yields_ite (fun _ => .bind ?_ fun wit hwit => yields_pure hwit)
    fun _ => yields_pure nofun
  exact hstacks.bind fun wit hwit => yields_ite (fun _ => yields_failure) fun _ => yields_pure hwit.2

theorem yields_unserializeText (nVersion : Int) :
    Yields (unserializeText nVersion) fun text => text.length ≤ MAX_SIZE :=
  yields_ite (fun _ => yields_unserBytes) fun _ => yields_pure (Nat.zero_le _)

/-- **Whatever is read is within the limit.** -/
theorem yields_unserialize : Yields (CTransaction.unserialize fWitness) Bounded := by
  refine (yields_true _).bind fun nVersion _ => (yields_true _).bind fun nTime _ =>
    (yields_unserializeBody fWitness).bind fun body hbody => ?_
  obtain ⟨vin, vout, flags⟩ := body
  refine (yields_unserializeFlagged fWitness vin.length flags).bind fun flagged hwit => ?_
  obtain ⟨wit, flags⟩ := flagged
  refine yields_ite (fun _ => yields_failure) fun _ => (yields_true _).bind fun nLockTime _ =>
    (yields_unserializeText nVersion).bind fun strDZeel htext => ?_
  by_cases hle : wit.length ≤ vin.length
  · rw [dif_pos hle]
    exact yields_pure ⟨hbody.1.1, hbody.1.2, hbody.2.1, hbody.2.2, hwit, htext⟩
  · rw [dif_neg hle]
    exact yields_failure

end CTransaction

end Chratos
