import Chratos.Script.Interpreter

/-!
# Chratos — spending an output (`script/interpreter.cpp`: `VerifyScript`)

The signature script is evaluated and, on its stack, the script of the output. Under the flag `P2SH` the
last push of a signature script for a script hash is a script that is evaluated in its turn, and under
`WITNESS` a witness program has a script of its own that is evaluated on the witness.
-/

namespace Chratos

open Outcome

/-- The loop of `IsPushOnly`. -/
def isPushOnlyLoop : Nat → CScript → Bool
  | 0, _ => true
  | rounds + 1, pc =>
    if pc = [] then true
    else match getOp pc with
      | none => false
      | some (opcode, _, pc) => if OP_16 < opcode then false else isPushOnlyLoop rounds pc

/-- `IsPushOnly`. Every instruction takes a byte, so the length bounds the rounds. -/
def isPushOnly (script : CScript) : Bool := isPushOnlyLoop script.length script

/-- The end of an evaluation: the top of the stack has to be there and true. -/
def requireTrue (stack : List Valtype) : Eval Unit :=
  match stack with
  | [] => .error (.error .SCRIPT_ERR_EVAL_FALSE)
  | vch :: _ => setErrorIf (!castToBool vch) .SCRIPT_ERR_EVAL_FALSE

/-- `stack.resize(1)`: the first element stays. -/
def resizeOne (stack : List Valtype) : List Valtype := [stack.getLast?.getD []]

/-- `assert(c);` -/
def assertThat (c : Bool) : Eval Unit := failIf (!c) .assertion

section

variable (crypto : ScriptCrypto) (checker : BaseSignatureChecker) (flags : ScriptFlags)

/-- The script of a witness program of version 0 and the stack it begins with. -/
def witnessScript (witness : List Valtype) (program : Valtype) : Eval (CScript × List Valtype) :=
  if program.length = 32 then
    match witness.reverse with
    | [] => .error (.error .SCRIPT_ERR_WITNESS_PROGRAM_WITNESS_EMPTY)
    | scriptPubKey :: stack => do
      setErrorIf (crypto.sha256 scriptPubKey ≠ program) .SCRIPT_ERR_WITNESS_PROGRAM_MISMATCH
      .ok (scriptPubKey, stack)
  else if program.length = 20 then do
    setErrorIf (witness.length ≠ 2) .SCRIPT_ERR_WITNESS_PROGRAM_MISMATCH
    .ok ([OP_DUP, OP_HASH160] ++ pushData program ++ [OP_EQUALVERIFY, OP_CHECKSIG], witness.reverse)
  else .error (.error .SCRIPT_ERR_WITNESS_PROGRAM_WRONG_LENGTH)

def verifyWitnessProgram (witness : List Valtype) (witversion : Nat) (program : Valtype) : Eval Unit :=
  if witversion = 0 then do
    let (scriptPubKey, stack) ← witnessScript crypto witness program
    setErrorIf (stack.any fun vch => MAX_SCRIPT_ELEMENT_SIZE < vch.length) .SCRIPT_ERR_PUSH_SIZE
    let stack ← evalScript ⟨crypto, checker, flags, .SIGVERSION_WITNESS_V0⟩ stack scriptPubKey
    setErrorIf (stack.length ≠ 1) .SCRIPT_ERR_EVAL_FALSE
    requireTrue stack
  else setErrorIf (hasFlag flags SCRIPT_VERIFY_DISCOURAGE_UPGRADABLE_WITNESS_PROGRAM)
    .SCRIPT_ERR_DISCOURAGE_UPGRADABLE_WITNESS_PROGRAM

/-- A script that may be a witness program: the stack afterwards and `hadWitness`. The signature
script is malleated if it is not what it has to be for such a program. -/
def verifyWitness (script : CScript) (fMalleated : Bool) (e : ScriptError) (witness : List Valtype)
    (r : List Valtype × Bool) : Eval (List Valtype × Bool) :=
  if hasFlag flags SCRIPT_VERIFY_WITNESS then
    match isWitnessProgram script with
    | none => .ok r
    | some (witnessversion, witnessprogram) => do
      setErrorIf fMalleated e
      verifyWitnessProgram crypto checker flags witness witnessversion witnessprogram
      .ok (resizeOne r.1, true)
  else .ok r

/-- The evaluation of the script that a script hash stands for. -/
def verifyScriptHash (scriptSig scriptPubKey : CScript) (witness stackCopy : List Valtype)
    (r : List Valtype × Bool) : Eval (List Valtype × Bool) :=
  if hasFlag flags SCRIPT_VERIFY_P2SH && isPayToScriptHash scriptPubKey then do
    setErrorIf (!isPushOnly scriptSig) .SCRIPT_ERR_SIG_PUSHONLY
    match stackCopy with
    | [] => .error .assertion
    | pubKey2 :: stack => do
      let stack ← evalScript ⟨crypto, checker, flags, .SIGVERSION_BASE⟩ stack pubKey2
      requireTrue stack
      verifyWitness crypto checker flags pubKey2 (scriptSig ≠ pushData pubKey2)
        .SCRIPT_ERR_WITNESS_MALLEATED_P2SH witness (stack, r.2)
  else .ok r

/-- `VerifyScript`. No witness is the empty one. -/
def verifyScript (scriptSig scriptPubKey : CScript) (witness : List Valtype) : Eval Unit := do
  setErrorIf (hasFlag flags SCRIPT_VERIFY_SIGPUSHONLY && !isPushOnly scriptSig) .SCRIPT_ERR_SIG_PUSHONLY
  let stackCopy ← evalScript ⟨crypto, checker, flags, .SIGVERSION_BASE⟩ [] scriptSig
  let stack ← evalScript ⟨crypto, checker, flags, .SIGVERSION_BASE⟩ stackCopy scriptPubKey
  requireTrue stack
  let r ← verifyWitness crypto checker flags scriptPubKey (scriptSig ≠ []) .SCRIPT_ERR_WITNESS_MALLEATED
    witness (stack, false)
  let r ← verifyScriptHash crypto checker flags scriptSig scriptPubKey witness stackCopy r
  if hasFlag flags SCRIPT_VERIFY_CLEANSTACK then do
    assertThat (hasFlag flags SCRIPT_VERIFY_P2SH)
    assertThat (hasFlag flags SCRIPT_VERIFY_WITNESS)
    setErrorIf (r.1.length ≠ 1) .SCRIPT_ERR_CLEANSTACK
  else .ok ()
  if hasFlag flags SCRIPT_VERIFY_WITNESS then do
    assertThat (hasFlag flags SCRIPT_VERIFY_P2SH)
    setErrorIf (!r.2 && witness ≠ []) .SCRIPT_ERR_WITNESS_UNEXPECTED
  else .ok ()

end

end Chratos
