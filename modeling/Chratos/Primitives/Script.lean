import Chratos.Lib.Codec

/-!
# Chratos — scripts as byte strings (`script/script.h`, `script/script.cpp`)

What block validation reads off a script without executing it: the instruction scanner
`GetOp2`, the signature-operation counts, and the fixed shapes recognised byte for byte
(pay-to-pubkey-hash, pay-to-script-hash, witness programs, dividend contributions,
unspendable outputs). Execution is modelled under `Script`; the chain model takes `VerifyScript` as a
parameter.
-/

namespace Chratos

open Codec

abbrev CScript := List UInt8

def OP_PUSHDATA1 : UInt8 := 0x4c
def OP_PUSHDATA2 : UInt8 := 0x4d
def OP_PUSHDATA4 : UInt8 := 0x4e
def OP_1 : UInt8 := 0x51
def OP_16 : UInt8 := 0x60
def OP_RETURN : UInt8 := 0x6a
def OP_DUP : UInt8 := 0x76
def OP_EQUAL : UInt8 := 0x87
def OP_EQUALVERIFY : UInt8 := 0x88
def OP_HASH160 : UInt8 := 0xa9
def OP_CHECKSIG : UInt8 := 0xac
def OP_CHECKSIGVERIFY : UInt8 := 0xad
def OP_CHECKMULTISIG : UInt8 := 0xae
def OP_CHECKMULTISIGVERIFY : UInt8 := 0xaf
def OP_DIVIDEND : UInt8 := 0xd1
def OP_INVALIDOPCODE : UInt8 := 0xff

def MAX_PUBKEYS_PER_MULTISIG : Nat := 20
def MAX_SCRIPT_SIZE : Nat := 10000

/-! ## The instruction scanner -/

/-- The operand length that follows a push opcode, with what is left of the script. -/
def pushSize (opcode : UInt8) : Reader Nat :=
  if opcode < OP_PUSHDATA1 then pure opcode.toNat
  else if opcode = OP_PUSHDATA1 then readLE 1
  else if opcode = OP_PUSHDATA2 then readLE 2
  else readLE 4

/-- One instruction: its opcode, the data it pushes, and the script after it. `none` is the
scanner's `false`: no instruction, or one cut short. -/
def getOp (pc : CScript) : Option (UInt8 × List UInt8 × CScript) :=
  match pc with
  | [] => none
  | opcode :: pc =>
    if opcode ≤ OP_PUSHDATA4 then
      match (do let n ← pushSize opcode; readBytes n : Reader (List UInt8)) pc with
      | some (data, pc) => some (opcode, data, pc)
      | none => none
    else some (opcode, [], pc)

theorem shrinks_pushSize (opcode : UInt8) : Shrinks (pushSize opcode) := by
  unfold pushSize
  split
  · exact shrinks_pure _
  · split
    · exact shrinks_readLE 1
    · split
      · exact shrinks_readLE 2
      · exact shrinks_readLE 4

/-- Every instruction takes its opcode at least. -/
theorem getOp_length_lt {pc next : CScript} {opcode : UInt8} {data : List UInt8}
    (h : getOp pc = some (opcode, data, next)) : next.length < pc.length := by
  cases pc with
  | nil => exact nomatch h
  | cons b pc =>
    apply Nat.lt_succ_of_le
    rw [getOp] at h
    split at h
    · split at h
      · rename_i hread
        cases h
        exact ((shrinks_pushSize _).bind fun _ => shrinks_readBytes _) hread
      · cases h
    · cases h
      exact Nat.le_refl _

/-! ## Signature operations -/

/-- What one instruction adds to the count; `OP_N` before a multisig says how many keys. -/
def sigOpsOf (fAccurate : Bool) (lastOpcode opcode : UInt8) : Nat :=
  if opcode = OP_CHECKSIG ∨ opcode = OP_CHECKSIGVERIFY then 1
  else if opcode = OP_CHECKMULTISIG ∨ opcode = OP_CHECKMULTISIGVERIFY then
    if fAccurate ∧ OP_1 ≤ lastOpcode ∧ lastOpcode ≤ OP_16 then lastOpcode.toNat - 0x50
    else MAX_PUBKEYS_PER_MULTISIG
  else 0

def getSigOpCountLoop (fAccurate : Bool) : Nat → CScript → UInt8 → Nat → Nat
  | 0, _, _, n => n
  | fuel + 1, pc, lastOpcode, n =>
    match getOp pc with
    | none => n
    | some (opcode, _, pc) =>
      getSigOpCountLoop fAccurate fuel pc opcode (n + sigOpsOf fAccurate lastOpcode opcode)

section

variable (script : CScript)

/-- Every instruction takes at least one byte, so the script's length bounds the rounds. -/
def getSigOpCount (fAccurate : Bool) : Nat :=
  getSigOpCountLoop fAccurate script.length script OP_INVALIDOPCODE 0

/-- The data of the last instruction when all are pushes; `none` otherwise. -/
def lastPush : Nat → CScript → List UInt8 → Option (List UInt8)
  | 0, _, data => some data
  | fuel + 1, pc, data =>
    if pc = [] then some data
    else match getOp pc with
      | none => none
      | some (opcode, data, pc) => if OP_16 < opcode then none else lastPush fuel pc data

def isPayToScriptHash : Bool :=
  script.length = 23 ∧ script[0]? = some OP_HASH160 ∧ script[1]? = some 0x14 ∧
    script[22]? = some OP_EQUAL

def isPayToPublicKeyHash : Bool :=
  script.length = 25 ∧ script[0]? = some OP_DUP ∧ script[1]? = some OP_HASH160 ∧
    script[2]? = some 0x14 ∧ script[23]? = some OP_EQUALVERIFY ∧
    script[24]? = some OP_CHECKSIG

def isDividendContribution : Bool :=
  script = [OP_RETURN, OP_DIVIDEND]

def isUnspendable : Bool :=
  script.head? = some OP_RETURN ∨ MAX_SCRIPT_SIZE < script.length

/-- `GetSigOpCount(scriptSig)`: through the redeem script when this is pay-to-script-hash. -/
def getSigOpCountFor (scriptPubKey scriptSig : CScript) : Nat :=
  if !isPayToScriptHash scriptPubKey then getSigOpCount scriptPubKey true
  else match lastPush scriptSig.length scriptSig [] with
    | none => 0
    | some data => getSigOpCount data true

/-! ## Witness programs -/

/-- The version and the program, when the script is a witness program. -/
def isWitnessProgram : Option (Nat × List UInt8) :=
  match script with
  | op :: len :: program =>
    if script.length < 4 ∨ 42 < script.length then none
    else if op ≠ 0 ∧ (op < OP_1 ∨ OP_16 < op) then none
    else if len.toNat + 2 = script.length then
      some (if op = 0 then 0 else op.toNat - 0x50, program)
    else none
  | _ => none

end

def witnessSigOps (witversion : Nat) (witprogram : List UInt8) (stack : List (List UInt8)) : Nat :=
  if witversion = 0 then
    if witprogram.length = 20 then 1
    else if witprogram.length = 32 then
      match stack.getLast? with
      | some last => getSigOpCount last true
      | none => 0
    else 0
  else 0

/-- `CountWitnessSigOps` once the flags call for it. -/
def countWitnessSigOps (scriptSig scriptPubKey : CScript) (stack : List (List UInt8)) : Nat :=
  match isWitnessProgram scriptPubKey with
  | some (version, program) => witnessSigOps version program stack
  | none =>
    if isPayToScriptHash scriptPubKey then
      match lastPush scriptSig.length scriptSig [] with
      | none => 0
      | some data =>
        match isWitnessProgram data with
        | some (version, program) => witnessSigOps version program stack
        | none => 0
    else 0

end Chratos
