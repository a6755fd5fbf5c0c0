import Chratos.Primitives.Encoding

/-!
# Chratos — what a signature signs (`script/interpreter.cpp`: `SignatureHash`)

A signature is over the hash of a string of bytes made from the spending transaction, the script it
spends and the hash type. There are two layouts. The old one writes the transaction with the input
scripts blanked (`CTransactionSignatureSerializer`); the one for witness programs writes hashes of
the prevouts, the sequences and the outputs. This fork has added a time and a free text to
transactions, and only the old layout has them.
-/

namespace Chratos

open Codec List CTxOut

inductive SigVersion where
  | SIGVERSION_BASE
  | SIGVERSION_WITNESS_V0
  deriving DecidableEq

def SIGHASH_ALL : UInt32 := 1
def SIGHASH_NONE : UInt32 := 2
def SIGHASH_SINGLE : UInt32 := 3
def SIGHASH_ANYONECANPAY : UInt32 := 0x80

def OP_CODESEPARATOR : UInt8 := 0xab

/-! ## The script code -/

/-- Where `GetOp2` has moved to when it fails: past the opcode, and past the operand's length if
that could be read. -/
def getOpStop : CScript → CScript
  | [] => []
  | opcode :: pc =>
    match pushSize opcode pc with
    | none => pc
    | some (_, pc) => pc

def countCodeSeparators : Nat → CScript → Nat
  | 0, _ => 0
  | fuel + 1, it =>
    match getOp it with
    | none => 0
    | some (opcode, _, next) =>
      (if opcode = OP_CODESEPARATOR then 1 else 0) + countCodeSeparators fuel next

/-- The instructions one after another without the separators. After an instruction that is cut
short only what the scanner has passed is written. -/
def withoutCodeSeparators : Nat → CScript → List UInt8
  | 0, _ => []
  | fuel + 1, it =>
    match getOp it with
    | none => it.take (it.length - (getOpStop it).length)
    | some (opcode, _, next) =>
      (if opcode = OP_CODESEPARATOR then [] else it.take (it.length - next.length)) ++
        withoutCodeSeparators fuel next

/-- `SerializeScriptCode`. Every instruction takes a byte, so the length bounds the rounds. -/
def serializeScriptCode (scriptCode : CScript) : List UInt8 :=
  writeCompactSize (scriptCode.length - countCodeSeparators scriptCode.length scriptCode) ++
    withoutCodeSeparators scriptCode.length scriptCode

/-! ## The old layout -/

/-- `CTransactionSignatureSerializer`. -/
structure CTransactionSignatureSerializer where
  txTo : CTransaction
  scriptCode : CScript
  nIn : Nat
  nHashType : UInt32

namespace CTransactionSignatureSerializer

variable (s : CTransactionSignatureSerializer)

def fAnyoneCanPay : Bool := s.nHashType &&& SIGHASH_ANYONECANPAY ≠ 0
def fHashSingle : Bool := s.nHashType &&& 0x1f = SIGHASH_SINGLE
def fHashNone : Bool := s.nHashType &&& 0x1f = SIGHASH_NONE

/-- `SerializeInput` of the input at a place. -/
def serializeInput (input : CTxIn) (nInput : Nat) : List UInt8 :=
  input.prevout.serialize ++
    (if nInput ≠ s.nIn then serBytes [] else serializeScriptCode s.scriptCode) ++
    (if nInput ≠ s.nIn ∧ (s.fHashSingle ∨ s.fHashNone) then serInt32 0
      else serUInt32 input.nSequence)

def serializeOutput (output : CTxOut) (nOutput : Nat) : List UInt8 :=
  if s.fHashSingle ∧ nOutput ≠ s.nIn then CTxOut.null.serialize else output.serialize

/-- The inputs that are written, with their places: with `SIGHASH_ANYONECANPAY` the signed one. -/
def inputs : List (CTxIn × Nat) :=
  if s.fAnyoneCanPay then (s.txTo.vin.zipIdx.drop s.nIn).take 1 else s.txTo.vin.zipIdx

def outputs : List (CTxOut × Nat) :=
  if s.fHashNone then []
  else if s.fHashSingle then s.txTo.vout.zipIdx.take (s.nIn + 1) else s.txTo.vout.zipIdx

def serialize : List UInt8 :=
  serInt32 s.txTo.nVersion ++ serUInt32 s.txTo.nTime ++
    serVector (fun p => s.serializeInput p.1 p.2) s.inputs ++
    serVector (fun p => s.serializeOutput p.1 p.2) s.outputs ++
    serUInt32 s.txTo.nLockTime ++ serBytes s.txTo.strDZeel

end CTransactionSignatureSerializer

/-! ## The layout for witness programs -/

def prevoutBytes (txTo : CTransaction) : List UInt8 := txTo.vin.flatMap fun i => i.prevout.serialize

def sequenceBytes (txTo : CTransaction) : List UInt8 := txTo.vin.flatMap fun i => serUInt32 i.nSequence

def outputBytes (txTo : CTransaction) : List UInt8 := txTo.vout.flatMap CTxOut.serialize

section

variable (hash256 : List UInt8 → Uint256)

def getPrevoutHash (txTo : CTransaction) : Uint256 :=
  hash256 (prevoutBytes txTo)

def getSequenceHash (txTo : CTransaction) : Uint256 :=
  hash256 (sequenceBytes txTo)

def getOutputsHash (txTo : CTransaction) : Uint256 :=
  hash256 (outputBytes txTo)

variable (scriptCode : CScript) (txTo : CTransaction) (nIn : Nat) (nHashType : UInt32)
  (amount : Int)

/-- The fields of the new layout around the signed input. -/
def witnessPreimage (input : CTxIn) : List UInt8 :=
  let fAnyoneCanPay : Bool := nHashType &&& SIGHASH_ANYONECANPAY ≠ 0
  let fHashSingle : Bool := nHashType &&& 0x1f = SIGHASH_SINGLE
  let fHashNone : Bool := nHashType &&& 0x1f = SIGHASH_NONE
  let hashPrevouts := if !fAnyoneCanPay then getPrevoutHash hash256 txTo else 0
  let hashSequence := if !fAnyoneCanPay && !fHashSingle && !fHashNone then
    getSequenceHash hash256 txTo else 0
  let hashOutputs := if !fHashSingle && !fHashNone then getOutputsHash hash256 txTo
    else if fHashSingle then (txTo.vout[nIn]?).elim 0 fun output => hash256 output.serialize
    else 0
  serInt32 txTo.nVersion ++ serUint256 hashPrevouts ++ serUint256 hashSequence ++
    input.prevout.serialize ++ serBytes scriptCode ++ leBytes 8 (amount % 2 ^ 64).toNat ++
    serUInt32 input.nSequence ++ serUint256 hashOutputs ++ serUInt32 txTo.nLockTime ++
    serUInt32 nHashType

/-- The string that is hashed; `none` where the old layout returns the number one instead of a hash
and the new one reads past the inputs. The cached hashes are those of the same functions. -/
def signaturePreimage : SigVersion → Option (List UInt8)
  | .SIGVERSION_WITNESS_V0 =>
    (txTo.vin[nIn]?).map (witnessPreimage hash256 scriptCode txTo nIn nHashType amount)
  | .SIGVERSION_BASE =>
    if txTo.vin.length ≤ nIn then none
    else if nHashType &&& 0x1f = SIGHASH_SINGLE ∧ txTo.vout.length ≤ nIn then none
    else some ((⟨txTo, scriptCode, nIn, nHashType⟩ : CTransactionSignatureSerializer).serialize ++
      serUInt32 nHashType)

def signatureHash (sigversion : SigVersion) : Uint256 :=
  match signaturePreimage hash256 scriptCode txTo nIn nHashType amount sigversion with
  | some bytes => hash256 bytes
  | none => 1

end

/-! ## What the strings determine -/

/-- The transactions agree on all that is meant to be signed. -/
structure SameSigned (a b : CTransaction) : Prop where
  nVersion : a.nVersion = b.nVersion
  nTime : a.nTime = b.nTime
  prevouts : a.vin.map CTxIn.prevout = b.vin.map CTxIn.prevout
  sequences : a.vin.map CTxIn.nSequence = b.vin.map CTxIn.nSequence
  vout : a.vout = b.vout
  nLockTime : a.nLockTime = b.nLockTime
  strDZeel : 2 ≤ a.nVersion → a.strDZeel = b.strDZeel

section

variable {hash256 : List UInt8 → Uint256} {scriptCode : CScript} {nIn : Nat} {amount : Int}
  {a b : CTransaction} {bytes : List UInt8}

theorem sighash_all_flags : SIGHASH_ALL &&& SIGHASH_ANYONECANPAY = 0 ∧
    SIGHASH_ALL &&& 0x1f ≠ SIGHASH_SINGLE ∧ SIGHASH_ALL &&& 0x1f ≠ SIGHASH_NONE := by decide

variable (tx : CTransaction)

variable (scriptCode nIn) in
/-- A transaction signed with `SIGHASH_ALL`. -/
abbrev signAll : CTransactionSignatureSerializer :=
  ⟨tx, scriptCode, nIn, SIGHASH_ALL⟩

theorem signAll_flags : (signAll scriptCode nIn tx).fAnyoneCanPay = false ∧
    (signAll scriptCode nIn tx).fHashSingle = false ∧
    (signAll scriptCode nIn tx).fHashNone = false :=
  ⟨decide_eq_false fun h => h sighash_all_flags.1, decide_eq_false sighash_all_flags.2.1,
    decide_eq_false sighash_all_flags.2.2⟩

/-- Every input has its prevout and its sequence, around a script that does not depend on the
transaction. -/
theorem serializeInput_all (i : CTxIn) (n : Nat) :
    (signAll scriptCode nIn tx).serializeInput i n = i.prevout.serialize ++
      ((if n ≠ nIn then serBytes [] else serializeScriptCode scriptCode) ++
        serUInt32 i.nSequence) := by
  rw [CTransactionSignatureSerializer.serializeInput, (signAll_flags tx).2.1,
    (signAll_flags tx).2.2, append_assoc]
  simp

theorem serializeOutput_all (o : CTxOut) (n : Nat) :
    (signAll scriptCode nIn tx).serializeOutput o n = o.serialize := by
  rw [CTransactionSignatureSerializer.serializeOutput, (signAll_flags tx).2.1]
  simp

theorem inputs_all : (signAll scriptCode nIn tx).inputs = tx.vin.zipIdx := by
  rw [CTransactionSignatureSerializer.inputs, (signAll_flags tx).1]
  rfl

theorem outputs_all : (signAll scriptCode nIn tx).outputs = tx.vout.zipIdx := by
  rw [CTransactionSignatureSerializer.outputs, (signAll_flags tx).2.1, (signAll_flags tx).2.2]
  rfl

section

variable (ha : a.Sized) (hb : b.Sized)
  (h : signaturePreimage hash256 scriptCode a nIn SIGHASH_ALL amount .SIGVERSION_BASE = some bytes)
include h

/-- The bytes of the old layout, with `SIGHASH_ALL`. -/
theorem preimage_base_eq :
    bytes = serInt32 a.nVersion ++ (serUInt32 a.nTime ++ (writeCompactSize a.vin.length ++
      ((a.vin.zipIdx.flatMap fun p => p.1.prevout.serialize ++
        ((if p.2 ≠ nIn then serBytes [] else serializeScriptCode scriptCode) ++
          serUInt32 p.1.nSequence)) ++
        (serVector CTxOut.serialize a.vout ++ (serUInt32 a.nLockTime ++
          (serBytes a.strDZeel ++ serUInt32 SIGHASH_ALL)))))) := by
  have hinputs : serVector (fun p => (signAll scriptCode nIn a).serializeInput p.1 p.2)
      a.vin.zipIdx =
      writeCompactSize a.vin.length ++ a.vin.zipIdx.flatMap fun p => p.1.prevout.serialize ++
        ((if p.2 ≠ nIn then serBytes [] else serializeScriptCode scriptCode) ++
          serUInt32 p.1.nSequence) := by
    rw [serVector, length_zipIdx]
    exact congrArg _ (flatMap_congr fun p _ => serializeInput_all a p.1 p.2)
  have houtputs : serVector (fun p => (signAll scriptCode nIn a).serializeOutput p.1 p.2)
      a.vout.zipIdx =
      serVector serialize a.vout := by
    rw [serVector, serVector, length_zipIdx, flatMap_congr fun p _ =>
      serializeOutput_all a p.1 p.2, ← flatMap_map, zipIdx_map_fst]
  rw [signaturePreimage] at h
  split at h
  · cases h
  · rw [if_neg fun hsingle => sighash_all_flags.2.1 hsingle.1] at h
    injection h with h
    rw [← h, CTransactionSignatureSerializer.serialize, inputs_all, outputs_all, hinputs, houtputs]
    simp

include ha hb

/-- **The old layout** determines the whole transaction. -/
theorem preimage_base_inj
    (h' : signaturePreimage hash256 scriptCode b nIn SIGHASH_ALL amount .SIGVERSION_BASE =
      some bytes) : SameSigned a b := by
  have heq := (preimage_base_eq h).symm.trans (preimage_base_eq h')
  have hinput : ∀ n, Determines (fun i : CTxIn => i.prevout.serialize ++
      ((if n ≠ nIn then serBytes [] else serializeScriptCode scriptCode) ++
        serUInt32 i.nSequence)) (fun _ => True) fun i => (i.prevout, ((), i.nSequence)) := fun n =>
    (COutPoint.determines_serialize.comap _ CTxIn.prevout fun _ _ => trivial).and
      ((determines_const _).and (determines_serUInt32.comap _ CTxIn.nSequence fun _ _ => trivial))
  obtain ⟨hversion, heq⟩ := determines_serInt32 ha.nVersion hb.nVersion heq
  obtain ⟨htime, heq⟩ := determines_serUInt32 trivial trivial heq
  obtain ⟨hlen, heq⟩ := determines_writeCompactSize ha.vin_lt hb.vin_lt heq
  obtain ⟨hvin, heq⟩ := determines_flatMap_zipIdx _ hinput hlen (fun _ _ => trivial)
    (fun _ _ => trivial) 0 _ _ heq
  obtain ⟨hvout, heq⟩ := determines_serVector determines_serialize ⟨ha.vout_lt, ha.vout⟩
    ⟨hb.vout_lt, hb.vout⟩ heq
  obtain ⟨hlock, heq⟩ := determines_serUInt32 trivial trivial heq
  obtain ⟨htext, -⟩ := determines_serBytes ha.strDZeel_lt hb.strDZeel_lt heq
  simp only [map_id'] at hvout
  have hproj : ∀ {γ : Type} (g : COutPoint × (Unit × UInt32) → γ),
      a.vin.map (fun i => g (i.prevout, ((), i.nSequence))) =
        b.vin.map (fun i => g (i.prevout, ((), i.nSequence))) := fun g => by
    have := congrArg (List.map g) hvin
    rwa [map_map, map_map] at this
  exact ⟨hversion, htime, hproj Prod.fst, hproj (·.2.2), hvout, hlock, fun _ => htext⟩

/-- So does the hash that is signed, if the two strings do not collide. -/
theorem signatureHash_base_inj {bytes' : List UInt8}
    (h' : signaturePreimage hash256 scriptCode b nIn SIGHASH_ALL amount .SIGVERSION_BASE = some bytes')
    (hash : hash256 bytes = hash256 bytes' → bytes = bytes')
    (heq : signatureHash hash256 scriptCode a nIn SIGHASH_ALL amount .SIGVERSION_BASE =
      signatureHash hash256 scriptCode b nIn SIGHASH_ALL amount .SIGVERSION_BASE) : SameSigned a b := by
  unfold signatureHash at heq
  rw [h, h'] at heq
  exact preimage_base_inj ha hb h (hash heq ▸ h')

end

/-! ### The layout for witness programs -/

/-- The transactions agree on what the layout for witness programs writes. -/
structure SameInWitness (a b : CTransaction) : Prop where
  nVersion : a.nVersion = b.nVersion
  prevouts : a.vin.map CTxIn.prevout = b.vin.map CTxIn.prevout
  sequences : a.vin.map CTxIn.nSequence = b.vin.map CTxIn.nSequence
  vout : a.vout = b.vout
  nLockTime : a.nLockTime = b.nLockTime

/-- The three lists have different hashes where they differ. -/
structure NoCollision (hash256 : List UInt8 → Uint256) (a b : CTransaction) : Prop where
  prevouts : getPrevoutHash hash256 a = getPrevoutHash hash256 b → prevoutBytes a = prevoutBytes b
  sequences : getSequenceHash hash256 a = getSequenceHash hash256 b →
    sequenceBytes a = sequenceBytes b
  outputs : getOutputsHash hash256 a = getOutputsHash hash256 b → outputBytes a = outputBytes b

/-- The bytes of the layout for witness programs, with `SIGHASH_ALL`. -/
theorem preimage_witness_eq
    (h : signaturePreimage hash256 scriptCode a nIn SIGHASH_ALL amount .SIGVERSION_WITNESS_V0 =
      some bytes) : ∃ input, a.vin[nIn]? = some input ∧
      bytes = serInt32 a.nVersion ++ (serUint256 (getPrevoutHash hash256 a) ++
        (serUint256 (getSequenceHash hash256 a) ++ (input.prevout.serialize ++
          (serBytes scriptCode ++ (leBytes 8 (amount % 2 ^ 64).toNat ++
            (serUInt32 input.nSequence ++ (serUint256 (getOutputsHash hash256 a) ++
              (serUInt32 a.nLockTime ++ serUInt32 SIGHASH_ALL)))))))) := by
  obtain ⟨input, hinput, hbytes⟩ := Option.map_eq_some_iff.mp h
  refine ⟨input, hinput, ?_⟩
  rw [← hbytes, witnessPreimage]
  simp [sighash_all_flags]

/-- **The layout for witness programs** determines all but the time and the free text. -/
theorem preimage_witness_inj (ha : a.Sized) (hb : b.Sized) (hash : NoCollision hash256 a b)
    (h : signaturePreimage hash256 scriptCode a nIn SIGHASH_ALL amount .SIGVERSION_WITNESS_V0 =
      some bytes)
    (h' : signaturePreimage hash256 scriptCode b nIn SIGHASH_ALL amount .SIGVERSION_WITNESS_V0 =
      some bytes) : SameInWitness a b := by
  obtain ⟨i, -, hbytes⟩ := preimage_witness_eq h
  obtain ⟨j, -, hbytes'⟩ := preimage_witness_eq h'
  have heq := hbytes.symm.trans hbytes'
  obtain ⟨hversion, heq⟩ := determines_serInt32 ha.nVersion hb.nVersion heq
  obtain ⟨hprevouts, heq⟩ := determines_serUint256 trivial trivial heq
  obtain ⟨hsequences, heq⟩ := determines_serUint256 trivial trivial heq
  obtain ⟨-, heq⟩ := COutPoint.determines_serialize trivial trivial heq
  have heq := append_cancel_left (append_cancel_left heq)
  obtain ⟨-, heq⟩ := determines_serUInt32 trivial trivial heq
  obtain ⟨houtputs, heq⟩ := determines_serUint256 trivial trivial heq
  obtain ⟨hlock, -⟩ := determines_serUInt32 trivial trivial heq
  refine ⟨hversion, ?_, ?_, ?_, hlock⟩
  · refine (COutPoint.determines_serialize.comap (fun _ => True) CTxIn.prevout fun _ _ =>
      trivial).flatMap_inj
      (fun i _ => ?_) (fun _ _ => trivial) (fun _ _ => trivial) (hash.prevouts hprevouts)
    exact ne_nil_of_length_pos (by simp [COutPoint.serialize, serUint256])
  · exact (determines_serUInt32.comap (fun _ => True) CTxIn.nSequence fun _ _ => trivial).flatMap_inj
      (fun _ _ => cons_ne_nil _ _) (fun _ _ => trivial) (fun _ _ => trivial) (hash.sequences hsequences)
  · have hvout := determines_serialize.flatMap_inj
      (fun _ _ => ne_nil_of_length_pos (by simp [serialize])) ha.vout hb.vout
      (hash.outputs houtputs)
    rwa [map_id', map_id'] at hvout

/-- Time and free text can be changed without changing what is signed. -/
theorem preimage_witness_retimed (nTime : UInt32) (strDZeel : List UInt8) :
    signaturePreimage hash256 scriptCode { a with nTime := nTime, strDZeel := strDZeel } nIn
      SIGHASH_ALL amount .SIGVERSION_WITNESS_V0 =
    signaturePreimage hash256 scriptCode a nIn SIGHASH_ALL amount .SIGVERSION_WITNESS_V0 := rfl

/-- A signature of the new layout stays good for the changed transaction. -/
theorem signatureHash_witness_retimed (nTime : UInt32) (strDZeel : List UInt8) :
    signatureHash hash256 scriptCode { a with nTime := nTime, strDZeel := strDZeel } nIn SIGHASH_ALL
      amount .SIGVERSION_WITNESS_V0 =
    signatureHash hash256 scriptCode a nIn SIGHASH_ALL amount .SIGVERSION_WITNESS_V0 := by
  rw [signatureHash, preimage_witness_retimed]
  rfl

end

/-- A transaction with enough inputs for an input at the given place. -/
def manyInputs (nIn : Nat) (nTime : UInt32) : CTransaction where
  nVersion := 1
  nTime := nTime
  vin := List.replicate (nIn + 1) ⟨⟨1, 0⟩, [], 0⟩
  vout := []
  nLockTime := 0

/-- A stand-in for the hash: the string itself, as a number with 257 for a base. -/
def serialHash (bytes : List UInt8) : Uint256 :=
  bytes.foldl (fun n b => n * 257 + b.toNat + 1) 0

theorem manyInputs_sized {nIn : Nat} (h : nIn < 2 ^ 32) (nTime : UInt32) :
    (manyInputs nIn nTime).Sized where
  nVersion := (⟨by decide, by decide⟩ : IsInt32 1)
  vin_lt := by
    rw [manyInputs, length_replicate]
    omega
  vin := fun i hi => by
    rw [(mem_replicate.mp hi).2]
    decide
  vout_lt := Nat.two_pow_pos 64
  vout := nofun
  strDZeel_lt := Nat.two_pow_pos 64
  stack_lt := nofun
  item_lt := nofun

theorem preimage_witness_inj_retimed : SameInWitness (manyInputs 1 7) (manyInputs 1 8) :=
  preimage_witness_inj (manyInputs_sized (by decide) 7) (manyInputs_sized (by decide) 8)
    ⟨fun _ => rfl, fun _ => rfl, fun _ => rfl⟩
    (show signaturePreimage serialHash [0x51] (manyInputs 1 7) 1 _ COIN _ = some _ from rfl) rfl

/-- **Signatures commit to the whole transaction in the old layout only.** Two transactions with the
same bytes to sign agree on all signed fields, for every input index, script code and amount,
exactly if the signature version is the old one: the other leaves out `nTime` and `strDZeel`. -/
theorem signature_commits_iff (hash256 : List UInt8 → Uint256) (scriptCode : CScript) {nIn : Nat}
    (hnIn : nIn < 2 ^ 32) (amount : Int) (sigversion : SigVersion) :
    (∀ (a b : CTransaction) (bytes : List UInt8), a.Sized → b.Sized → NoCollision hash256 a b →
      signaturePreimage hash256 scriptCode a nIn SIGHASH_ALL amount sigversion = some bytes →
      signaturePreimage hash256 scriptCode b nIn SIGHASH_ALL amount sigversion = some bytes →
      SameSigned a b) ↔ sigversion = .SIGVERSION_BASE := by
  cases sigversion with
  | SIGVERSION_BASE =>
    exact ⟨fun _ => rfl, fun _ a b bytes ha hb _ h h' => preimage_base_inj ha hb h h'⟩
  | SIGVERSION_WITNESS_V0 =>
    refine ⟨fun h => ?_, nofun⟩
    have hinput : (manyInputs nIn 0).vin[nIn]? = some ⟨⟨1, 0⟩, [], 0⟩ := by
      show (List.replicate (nIn + 1) _)[nIn]? = _
      rw [getElem?_replicate, if_pos (Nat.lt_succ_self nIn)]
    have hsome : signaturePreimage hash256 scriptCode (manyInputs nIn 0) nIn SIGHASH_ALL amount
        .SIGVERSION_WITNESS_V0 = some _ := Option.map_eq_some_iff.mpr ⟨_, hinput, rfl⟩
    have hretimed := (preimage_witness_retimed 1 []).trans hsome
    have hsame := h (manyInputs nIn 0) (manyInputs nIn 1) _ (manyInputs_sized hnIn 0)
      (manyInputs_sized hnIn 1) ⟨fun _ => rfl, fun _ => rfl, fun _ => rfl⟩ hsome hretimed
    have htime : (0 : UInt32) = 1 := hsame.nTime
    exact absurd htime (by decide)

/-- The second input of a transaction, under a hash that reads all of its string. -/
theorem signature_commits_second_input :
    (∀ (a b : CTransaction) (bytes : List UInt8), a.Sized → b.Sized → NoCollision serialHash a b →
      signaturePreimage serialHash [0x51] a 1 SIGHASH_ALL COIN .SIGVERSION_BASE = some bytes →
      signaturePreimage serialHash [0x51] b 1 SIGHASH_ALL COIN .SIGVERSION_BASE = some bytes →
      SameSigned a b) ↔ SigVersion.SIGVERSION_BASE = .SIGVERSION_BASE :=
  signature_commits_iff serialHash [0x51] (by decide) COIN .SIGVERSION_BASE

/-- A spend of a witness program whose signed bytes stay the same when its time is rewritten. -/
theorem witness_signature_retimed :
    (signaturePreimage serialHash [0x51] (manyInputs 1 7) 1 SIGHASH_ALL COIN
      .SIGVERSION_WITNESS_V0).isSome ∧
    signaturePreimage serialHash [0x51] (manyInputs 1 7) 1 SIGHASH_ALL COIN .SIGVERSION_WITNESS_V0 =
    signaturePreimage serialHash [0x51] (manyInputs 1 8) 1 SIGHASH_ALL COIN .SIGVERSION_WITNESS_V0 ∧
    ¬SameSigned (manyInputs 1 7) (manyInputs 1 8) :=
  ⟨rfl, rfl, fun h => absurd h.nTime (by decide)⟩

end Chratos
