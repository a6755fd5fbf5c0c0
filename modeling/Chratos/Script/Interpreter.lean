import Chratos.Chain.Context
import Chratos.Script.ScriptNum
import Chratos.Script.SignatureHash

/-!
# Chratos — the script machine (`script/interpreter.cpp`: `EvalScript`)

A script is read instruction after instruction; the machine has a stack, an alternative stack and a
stack of conditions. Every access to a stack is checked here as `vector::at` and `popstack` check it,
so that an access outside of it is a failure of its own (`EvalFailure.outOfRange`).

The last element of a vector is the head of the list here: `stacktop(-i)` is `stacktop stack i`. The
hash functions, the check of low S values and the signature checker are parameters.
-/

namespace Chratos

open Codec Outcome ScriptNum

def SCRIPT_VERIFY_SIGPUSHONLY : ScriptFlags := 0x20
def SCRIPT_VERIFY_MINIMALIF : ScriptFlags := 0x2000
def SCRIPT_VERIFY_NULLFAIL : ScriptFlags := 0x4000
def SCRIPT_VERIFY_WITNESS_PUBKEYTYPE : ScriptFlags := 0x8000

def MAX_SCRIPT_ELEMENT_SIZE : Nat := 520
def MAX_OPS_PER_SCRIPT : Nat := 201
def MAX_STACK_SIZE : Nat := 1000

def SEQUENCE_LOCKTIME_DISABLE_FLAG : Nat := 2 ^ 31

/-- `(flags & mask) != 0`. -/
def hasFlag (flags mask : ScriptFlags) : Bool := flags &&& mask ≠ 0

abbrev Valtype := List UInt8

def vchFalse : Valtype := []
def vchTrue : Valtype := [1]

/-- A boolean as it is pushed. -/
def vchBool (b : Bool) : Valtype := if b then vchTrue else vchFalse

/-- The last byte may be a negative zero. -/
def castToBool : Valtype → Bool
  | [] => false
  | [b] => b ≠ 0 && b ≠ 0x80
  | b :: vch => b ≠ 0 || castToBool vch

/-! ## Parameters -/

/-- What the machine calls: hash functions, which write as many bytes as is reserved for them, and the
check of the S value of a signature. -/
structure ScriptCrypto where
  ripemd160 : Valtype → Valtype
  sha1 : Valtype → Valtype
  sha256 : Valtype → Valtype
  hash160 : Valtype → Valtype
  hash256 : Valtype → Valtype
  checkLowS : Valtype → Bool
  length_ripemd160 : ∀ vch, (ripemd160 vch).length = 20
  length_sha1 : ∀ vch, (sha1 vch).length = 20
  length_sha256 : ∀ vch, (sha256 vch).length = 32
  length_hash160 : ∀ vch, (hash160 vch).length = 20
  length_hash256 : ∀ vch, (hash256 vch).length = 32

/-- Hashes that are all zero. -/
instance : Inhabited ScriptCrypto where
  default :=
    { ripemd160 := fun _ => List.replicate 20 0
      sha1 := fun _ => List.replicate 20 0
      sha256 := fun _ => List.replicate 32 0
      hash160 := fun _ => List.replicate 20 0
      hash256 := fun _ => List.replicate 32 0
      checkLowS := fun _ => true
      length_ripemd160 := fun _ => List.length_replicate
      length_sha1 := fun _ => List.length_replicate
      length_sha256 := fun _ => List.length_replicate
      length_hash160 := fun _ => List.length_replicate
      length_hash256 := fun _ => List.length_replicate }

structure BaseSignatureChecker where
  checkSig : Valtype → Valtype → CScript → SigVersion → Bool
  checkLockTime : Int → Bool
  checkSequence : Int → Bool

/-- `BaseSignatureChecker` itself, which accepts nothing. -/
instance : Inhabited BaseSignatureChecker where
  default := ⟨fun _ _ _ _ => false, fun _ => false, fun _ => false⟩

/-- The arguments of `EvalScript` that do not change. -/
structure EvalContext where
  crypto : ScriptCrypto
  checker : BaseSignatureChecker
  flags : ScriptFlags
  sigversion : SigVersion

def EvalContext.fRequireMinimal (ctx : EvalContext) : Bool :=
    hasFlag ctx.flags SCRIPT_VERIFY_MINIMALDATA

/-! ## Encodings -/

def isCompressedPubKey (vchPubKey : Valtype) : Bool :=
  vchPubKey.length = 33 && (vchPubKey.getD 0 0 = 0x02 || vchPubKey.getD 0 0 = 0x03)

def isCompressedOrUncompressedPubKey (vchPubKey : Valtype) : Bool :=
  if vchPubKey.length < 33 then false
  else if vchPubKey.getD 0 0 = 0x04 then vchPubKey.length = 65
  else if vchPubKey.getD 0 0 = 0x02 ∨ vchPubKey.getD 0 0 = 0x03 then vchPubKey.length = 33
  else false

def isValidSignatureEncoding (sig : Valtype) : Bool :=
  if sig.length < 9 then false
  else if 73 < sig.length then false
  else if sig.getD 0 0 ≠ 0x30 then false
  else if (sig.getD 1 0).toNat ≠ sig.length - 3 then false
  else
    let lenR := (sig.getD 3 0).toNat
    if sig.length ≤ 5 + lenR then false
    else
      let lenS := (sig.getD (5 + lenR) 0).toNat
      if lenR + lenS + 7 ≠ sig.length then false
      else if sig.getD 2 0 ≠ 0x02 then false
      else if lenR = 0 then false
      else if sig.getD 4 0 &&& 0x80 ≠ 0 then false
      else if 1 < lenR ∧ sig.getD 4 0 = 0 ∧ sig.getD 5 0 &&& 0x80 = 0 then false
      else if sig.getD (lenR + 4) 0 ≠ 0x02 then false
      else if lenS = 0 then false
      else if sig.getD (lenR + 6) 0 &&& 0x80 ≠ 0 then false
      else if 1 < lenS ∧ sig.getD (lenR + 6) 0 = 0 ∧ sig.getD (lenR + 7) 0 &&& 0x80 = 0 then false
      else true

section

variable (crypto : ScriptCrypto) (vchSig : Valtype)

def isLowDERSignature : Eval Unit := do
  setErrorIf (!isValidSignatureEncoding vchSig) .SCRIPT_ERR_SIG_DER
  setErrorIf (!crypto.checkLowS vchSig.dropLast) .SCRIPT_ERR_SIG_HIGH_S

def isDefinedHashtypeSignature : Bool :=
  match vchSig.getLast? with
  | none => false
  | some back => 1 ≤ back &&& 0x7f && back &&& 0x7f ≤ 3

def checkSignatureEncoding (flags : ScriptFlags) : Eval Unit :=
  if vchSig = [] then .ok ()
  else do
    setErrorIf
      (hasFlag flags (SCRIPT_VERIFY_DERSIG ||| SCRIPT_VERIFY_LOW_S ||| SCRIPT_VERIFY_STRICTENC) &&
      !isValidSignatureEncoding vchSig) .SCRIPT_ERR_SIG_DER
    if hasFlag flags SCRIPT_VERIFY_LOW_S then isLowDERSignature crypto vchSig else .ok ()
    setErrorIf (hasFlag flags SCRIPT_VERIFY_STRICTENC && !isDefinedHashtypeSignature vchSig)
      .SCRIPT_ERR_SIG_HASHTYPE

def checkPubKeyEncoding (vchPubKey : Valtype) (flags : ScriptFlags) (sigversion : SigVersion) :
    Eval Unit := do
  setErrorIf (hasFlag flags SCRIPT_VERIFY_STRICTENC && !isCompressedOrUncompressedPubKey vchPubKey)
    .SCRIPT_ERR_PUBKEYTYPE
  setErrorIf (hasFlag flags SCRIPT_VERIFY_WITNESS_PUBKEYTYPE && sigversion = .SIGVERSION_WITNESS_V0 &&
    !isCompressedPubKey vchPubKey) .SCRIPT_ERR_WITNESS_PUBKEYTYPE

def checkMinimalPush (data : Valtype) (opcode : UInt8) : Bool :=
  if data.length = 0 then opcode = 0
  else if data.length = 1 ∧ 1 ≤ data.getD 0 0 ∧ data.getD 0 0 ≤ 16 then
    opcode.toNat = OP_1.toNat + ((data.getD 0 0).toNat - 1)
  else if data.length = 1 ∧ data.getD 0 0 = 0x81 then opcode = 0x4f
  else if data.length ≤ 75 then opcode.toNat = data.length
  else if data.length ≤ 255 then opcode = OP_PUSHDATA1
  else if data.length ≤ 65535 then opcode = OP_PUSHDATA2
  else true

/-! ## Scripts that are put together -/

/-- `CScript::operator<<` of a vector of bytes. -/
def pushData (b : Valtype) : CScript :=
  if b.length < OP_PUSHDATA1.toNat then UInt8.ofNat b.length :: b
  else if b.length ≤ 0xff then OP_PUSHDATA1 :: UInt8.ofNat b.length :: b
  else if b.length ≤ 0xffff then OP_PUSHDATA2 :: leBytes 2 b.length ++ b
  else OP_PUSHDATA4 :: leBytes 4 b.length ++ b

/-- The inner loop of `FindAndDelete`: matches one after another are skipped and counted. -/
def skipMatches (b : CScript) : Nat → CScript → Nat → CScript × Nat
  | 0, pc, nFound => (pc, nFound)
  | rounds + 1, pc, nFound =>
    if b <+: pc then skipMatches b rounds (pc.drop b.length) (nFound + 1) else (pc, nFound)

/-- The outer loop: what is kept, where the last match ends, and the number of matches. -/
def findAndDeleteLoop (b : CScript) : Nat → CScript → CScript → CScript → Nat → CScript × CScript × Nat
  | 0, pc2, _, result, nFound => (result, pc2, nFound)
  | rounds + 1, pc2, pc, result, nFound =>
    let result := result ++ pc2.take (pc2.length - pc.length)
    let skipped := skipMatches b pc.length pc nFound
    match getOp skipped.1 with
    | none => (result, skipped.1, skipped.2)
    | some (_, _, next) => findAndDeleteLoop b rounds skipped.1 next result skipped.2

/-- `FindAndDelete`. Every instruction takes a byte, so the length bounds the rounds. -/
def findAndDelete (script b : CScript) : CScript :=
  if b = [] then script
  else
    let found := findAndDeleteLoop b (script.length + 1) script script [] 0
    if 0 < found.2.2 then found.1 ++ found.2.1 else script

/-! ## Access to a stack -/

/-- `stacktop(-i)`. -/
def stacktop (stack : List Valtype) : Nat → Eval Valtype
  | 0 => .error .outOfRange
  | i + 1 =>
    match stack[i]? with
    | none => .error .outOfRange
    | some vch => .ok vch

def popstack : List Valtype → Eval (List Valtype)
  | [] => .error .outOfRange
  | _ :: stack => .ok stack

/-- `stack.erase(stack.end() - i)`. -/
def eraseTop (stack : List Valtype) : Nat → Eval (List Valtype)
  | 0 => .error .outOfRange
  | i + 1 => if i < stack.length then .ok (stack.eraseIdx i) else .error .outOfRange

/-- `stack.insert(stack.end() - i, vch)`. -/
def insertTop (stack : List Valtype) (i : Nat) (vch : Valtype) : Eval (List Valtype) :=
  if i ≤ stack.length then .ok (stack.take i ++ vch :: stack.drop i) else .error .outOfRange

/-- `swap(stacktop(-i), stacktop(-j))`. -/
def swapTop (stack : List Valtype) (i j : Nat) : Eval (List Valtype) := do
  let vch1 ← stacktop stack i
  let vch2 ← stacktop stack j
  .ok ((stack.set (i - 1) vch2).set (j - 1) vch1)

/-- `if (stack.size() < n) return set_error(serror, SCRIPT_ERR_INVALID_STACK_OPERATION);` -/
def requireSize (stack : List Valtype) (n : Nat) : Eval Unit :=
  setErrorIf (stack.length < n) .SCRIPT_ERR_INVALID_STACK_OPERATION

/-! ## Opcodes -/

/-- Operations on the stack that depend on nothing else. -/
inductive StackOp where
  | OP_2DROP
  | OP_2DUP
  | OP_3DUP
  | OP_2OVER
  | OP_2ROT
  | OP_2SWAP
  | OP_IFDUP
  | OP_DEPTH
  | OP_DROP
  | OP_DUP
  | OP_NIP
  | OP_OVER
  | OP_ROT
  | OP_SWAP
  | OP_TUCK
  | OP_SIZE
  deriving DecidableEq

inductive UnaryOp where
  | OP_1ADD
  | OP_1SUB
  | OP_NEGATE
  | OP_ABS
  | OP_NOT
  | OP_0NOTEQUAL
  deriving DecidableEq

inductive BinaryOp where
  | OP_ADD
  | OP_SUB
  | OP_BOOLAND
  | OP_BOOLOR
  | OP_NUMEQUAL
  | OP_NUMEQUALVERIFY
  | OP_NUMNOTEQUAL
  | OP_LESSTHAN
  | OP_GREATERTHAN
  | OP_LESSTHANOREQUAL
  | OP_GREATERTHANOREQUAL
  | OP_MIN
  | OP_MAX
  deriving DecidableEq

inductive HashOp where
  | OP_RIPEMD160
  | OP_SHA1
  | OP_SHA256
  | OP_HASH160
  | OP_HASH256
  deriving DecidableEq

/-- The cases of the `switch`. Constants are `number`, the opcodes reserved for upgrades
`upgradableNop`, and `bad` is the default. -/
inductive Opcode where
  | number (n : Int)
  | OP_NOP
  | OP_CHECKLOCKTIMEVERIFY
  | OP_CHECKSEQUENCEVERIFY
  | upgradableNop
  | OP_IF
  | OP_NOTIF
  | OP_ELSE
  | OP_ENDIF
  | OP_VERIFY
  | OP_RETURN
  | OP_TOALTSTACK
  | OP_FROMALTSTACK
  | stack (op : StackOp)
  | OP_PICK
  | OP_ROLL
  | OP_EQUAL
  | OP_EQUALVERIFY
  | unary (op : UnaryOp)
  | binary (op : BinaryOp)
  | OP_WITHIN
  | hash (op : HashOp)
  | OP_CODESEPARATOR
  | OP_CHECKSIG
  | OP_CHECKSIGVERIFY
  | OP_CHECKMULTISIG
  | OP_CHECKMULTISIGVERIFY
  | bad
  deriving DecidableEq

def opcodeOf (opcode : UInt8) : Opcode :=
  match opcode.toNat with
  | 0x4f => .number (-1)
  | 0x51 => .number 1
  | 0x52 => .number 2
  | 0x53 => .number 3
  | 0x54 => .number 4
  | 0x55 => .number 5
  | 0x56 => .number 6
  | 0x57 => .number 7
  | 0x58 => .number 8
  | 0x59 => .number 9
  | 0x5a => .number 10
  | 0x5b => .number 11
  | 0x5c => .number 12
  | 0x5d => .number 13
  | 0x5e => .number 14
  | 0x5f => .number 15
  | 0x60 => .number 16
  | 0x61 => .OP_NOP
  | 0x63 => .OP_IF
  | 0x64 => .OP_NOTIF
  | 0x67 => .OP_ELSE
  | 0x68 => .OP_ENDIF
  | 0x69 => .OP_VERIFY
  | 0x6a => .OP_RETURN
  | 0x6b => .OP_TOALTSTACK
  | 0x6c => .OP_FROMALTSTACK
  | 0x6d => .stack .OP_2DROP
  | 0x6e => .stack .OP_2DUP
  | 0x6f => .stack .OP_3DUP
  | 0x70 => .stack .OP_2OVER
  | 0x71 => .stack .OP_2ROT
  | 0x72 => .stack .OP_2SWAP
  | 0x73 => .stack .OP_IFDUP
  | 0x74 => .stack .OP_DEPTH
  | 0x75 => .stack .OP_DROP
  | 0x76 => .stack .OP_DUP
  | 0x77 => .stack .OP_NIP
  | 0x78 => .stack .OP_OVER
  | 0x79 => .OP_PICK
  | 0x7a => .OP_ROLL
  | 0x7b => .stack .OP_ROT
  | 0x7c => .stack .OP_SWAP
  | 0x7d => .stack .OP_TUCK
  | 0x82 => .stack .OP_SIZE
  | 0x87 => .OP_EQUAL
  | 0x88 => .OP_EQUALVERIFY
  | 0x8b => .unary .OP_1ADD
  | 0x8c => .unary .OP_1SUB
  | 0x8f => .unary .OP_NEGATE
  | 0x90 => .unary .OP_ABS
  | 0x91 => .unary .OP_NOT
  | 0x92 => .unary .OP_0NOTEQUAL
  | 0x93 => .binary .OP_ADD
  | 0x94 => .binary .OP_SUB
  | 0x9a => .binary .OP_BOOLAND
  | 0x9b => .binary .OP_BOOLOR
  | 0x9c => .binary .OP_NUMEQUAL
  | 0x9d => .binary .OP_NUMEQUALVERIFY
  | 0x9e => .binary .OP_NUMNOTEQUAL
  | 0x9f => .binary .OP_LESSTHAN
  | 0xa0 => .binary .OP_GREATERTHAN
  | 0xa1 => .binary .OP_LESSTHANOREQUAL
  | 0xa2 => .binary .OP_GREATERTHANOREQUAL
  | 0xa3 => .binary .OP_MIN
  | 0xa4 => .binary .OP_MAX
  | 0xa5 => .OP_WITHIN
  | 0xa6 => .hash .OP_RIPEMD160
  | 0xa7 => .hash .OP_SHA1
  | 0xa8 => .hash .OP_SHA256
  | 0xa9 => .hash .OP_HASH160
  | 0xaa => .hash .OP_HASH256
  | 0xab => .OP_CODESEPARATOR
  | 0xac => .OP_CHECKSIG
  | 0xad => .OP_CHECKSIGVERIFY
  | 0xae => .OP_CHECKMULTISIG
  | 0xaf => .OP_CHECKMULTISIGVERIFY
  | 0xb0 => .upgradableNop
  | 0xb1 => .OP_CHECKLOCKTIMEVERIFY
  | 0xb2 => .OP_CHECKSEQUENCEVERIFY
  | 0xb3 => .upgradableNop
  | 0xb4 => .upgradableNop
  | 0xb5 => .upgradableNop
  | 0xb6 => .upgradableNop
  | 0xb7 => .upgradableNop
  | 0xb8 => .upgradableNop
  | 0xb9 => .upgradableNop
  | _ => .bad

/-- `OP_CAT`, `OP_SUBSTR`, `OP_LEFT`, `OP_RIGHT`, `OP_INVERT`, `OP_AND`, `OP_OR`, `OP_XOR`, `OP_2MUL`,
`OP_2DIV`, `OP_MUL`, `OP_DIV`, `OP_MOD`, `OP_LSHIFT` and `OP_RSHIFT`. -/
def disabledOpcodes : List UInt8 :=
  [0x7e, 0x7f, 0x80, 0x81, 0x83, 0x84, 0x85, 0x86, 0x8d, 0x8e, 0x95, 0x96, 0x97, 0x98, 0x99]

/-! ## Operations -/

def stackOp (op : StackOp) (stack : List Valtype) : Eval (List Valtype) :=
  match op with
  | .OP_2DROP => do
    requireSize stack 2
    let stack ← popstack stack
    popstack stack
  | .OP_2DUP => do
    requireSize stack 2
    let vch1 ← stacktop stack 2
    let vch2 ← stacktop stack 1
    .ok (vch2 :: vch1 :: stack)
  | .OP_3DUP => do
    requireSize stack 3
    let vch1 ← stacktop stack 3
    let vch2 ← stacktop stack 2
    let vch3 ← stacktop stack 1
    .ok (vch3 :: vch2 :: vch1 :: stack)
  | .OP_2OVER => do
    requireSize stack 4
    let vch1 ← stacktop stack 4
    let vch2 ← stacktop stack 3
    .ok (vch2 :: vch1 :: stack)
  | .OP_2ROT => do
    requireSize stack 6
    let vch1 ← stacktop stack 6
    let vch2 ← stacktop stack 5
    let stack ← eraseTop stack 6
    let stack ← eraseTop stack 5
    .ok (vch2 :: vch1 :: stack)
  | .OP_2SWAP => do
    requireSize stack 4
    let stack ← swapTop stack 4 2
    swapTop stack 3 1
  | .OP_IFDUP => do
    requireSize stack 1
    let vch ← stacktop stack 1
    .ok (if castToBool vch then vch :: stack else stack)
  | .OP_DEPTH => .ok (serialize stack.length :: stack)
  | .OP_DROP => do
    requireSize stack 1
    popstack stack
  | .OP_DUP => do
    requireSize stack 1
    let vch ← stacktop stack 1
    .ok (vch :: stack)
  | .OP_NIP => do
    requireSize stack 2
    eraseTop stack 2
  | .OP_OVER => do
    requireSize stack 2
    let vch ← stacktop stack 2
    .ok (vch :: stack)
  | .OP_ROT => do
    requireSize stack 3
    let stack ← swapTop stack 3 2
    swapTop stack 2 1
  | .OP_SWAP => do
    requireSize stack 2
    swapTop stack 2 1
  | .OP_TUCK => do
    requireSize stack 2
    let vch ← stacktop stack 1
    insertTop stack 2 vch
  | .OP_SIZE => do
    requireSize stack 1
    let vch ← stacktop stack 1
    .ok (serialize vch.length :: stack)

/-- The end of the `VERIFY` variants: the result is removed again if it is true. -/
def verifyTop (fVerify fValue : Bool) (e : ScriptError) (stack : List Valtype) : Eval (List Valtype) :=
  if fVerify then if fValue then popstack stack else .error (.error e) else .ok stack

def unaryNum (op : UnaryOp) (bn : Int) : Eval Int :=
  match op with
  | .OP_1ADD => addAssign bn 1
  | .OP_1SUB => subAssign bn 1
  | .OP_NEGATE => neg bn
  | .OP_ABS => if bn < 0 then neg bn else .ok bn
  | .OP_NOT => .ok (if bn = 0 then 1 else 0)
  | .OP_0NOTEQUAL => .ok (if bn ≠ 0 then 1 else 0)

def binaryNum (op : BinaryOp) (bn1 bn2 : Int) : Int :=
  match op with
  | .OP_ADD => bn1 + bn2
  | .OP_SUB => bn1 - bn2
  | .OP_BOOLAND => if bn1 ≠ 0 ∧ bn2 ≠ 0 then 1 else 0
  | .OP_BOOLOR => if bn1 ≠ 0 ∨ bn2 ≠ 0 then 1 else 0
  | .OP_NUMEQUAL => if bn1 = bn2 then 1 else 0
  | .OP_NUMEQUALVERIFY => if bn1 = bn2 then 1 else 0
  | .OP_NUMNOTEQUAL => if bn1 ≠ bn2 then 1 else 0
  | .OP_LESSTHAN => if bn1 < bn2 then 1 else 0
  | .OP_GREATERTHAN => if bn2 < bn1 then 1 else 0
  | .OP_LESSTHANOREQUAL => if bn1 ≤ bn2 then 1 else 0
  | .OP_GREATERTHANOREQUAL => if bn2 ≤ bn1 then 1 else 0
  | .OP_MIN => if bn1 < bn2 then bn1 else bn2
  | .OP_MAX => if bn2 < bn1 then bn1 else bn2

def hashBytes (op : HashOp) (vch : Valtype) : Valtype :=
  match op with
  | .OP_RIPEMD160 => crypto.ripemd160 vch
  | .OP_SHA1 => crypto.sha1 vch
  | .OP_SHA256 => crypto.sha256 vch
  | .OP_HASH160 => crypto.hash160 vch
  | .OP_HASH256 => crypto.hash256 vch

end

section

variable (ctx : EvalContext)

/-- `CScriptNum(vch, fRequireMinimal)`. -/
def scriptNumOf (vch : Valtype) : Eval Int :=
  ofVch vch ctx.fRequireMinimal nDefaultMaxNumSize

def unaryOp (op : UnaryOp) (stack : List Valtype) : Eval (List Valtype) := do
  requireSize stack 1
  let vch ← stacktop stack 1
  let bn ← scriptNumOf ctx vch
  let bn ← unaryNum op bn
  let stack ← popstack stack
  .ok (serialize bn :: stack)

def binaryOp (op : BinaryOp) (stack : List Valtype) : Eval (List Valtype) := do
  requireSize stack 2
  let vch1 ← stacktop stack 2
  let bn1 ← scriptNumOf ctx vch1
  let vch2 ← stacktop stack 1
  let bn2 ← scriptNumOf ctx vch2
  let stack ← popstack stack
  let stack ← popstack stack
  let vch := serialize (binaryNum op bn1 bn2)
  verifyTop (op = .OP_NUMEQUALVERIFY) (castToBool vch) .SCRIPT_ERR_NUMEQUALVERIFY (vch :: stack)

def within (stack : List Valtype) : Eval (List Valtype) := do
  requireSize stack 3
  let vch1 ← stacktop stack 3
  let bn1 ← scriptNumOf ctx vch1
  let vch2 ← stacktop stack 2
  let bn2 ← scriptNumOf ctx vch2
  let vch3 ← stacktop stack 1
  let bn3 ← scriptNumOf ctx vch3
  let stack ← popstack stack
  let stack ← popstack stack
  let stack ← popstack stack
  .ok (vchBool (bn2 ≤ bn1 ∧ bn1 < bn3) :: stack)

def hashOp (op : HashOp) (stack : List Valtype) : Eval (List Valtype) := do
  requireSize stack 1
  let vch ← stacktop stack 1
  let stack ← popstack stack
  .ok (hashBytes ctx.crypto op vch :: stack)

/-- `OP_EQUAL` and `OP_EQUALVERIFY`. -/
def equalOp (fVerify : Bool) (stack : List Valtype) : Eval (List Valtype) := do
  requireSize stack 2
  let vch1 ← stacktop stack 2
  let vch2 ← stacktop stack 1
  let fEqual := vch1 = vch2
  let stack ← popstack stack
  let stack ← popstack stack
  verifyTop fVerify fEqual .SCRIPT_ERR_EQUALVERIFY (vchBool fEqual :: stack)

/-- `OP_PICK` and `OP_ROLL`. -/
def pickOp (fRoll : Bool) (stack : List Valtype) : Eval (List Valtype) := do
  requireSize stack 2
  let vch ← stacktop stack 1
  let bn ← scriptNumOf ctx vch
  let n := getint bn
  let stack ← popstack stack
  setErrorIf (n < 0 ∨ stack.length ≤ n) .SCRIPT_ERR_INVALID_STACK_OPERATION
  let vch ← stacktop stack (n.toNat + 1)
  let stack ← if fRoll then eraseTop stack (n.toNat + 1) else .ok stack
  .ok (vch :: stack)

def verifyOp (stack : List Valtype) : Eval (List Valtype) := do
  requireSize stack 1
  let vch ← stacktop stack 1
  if castToBool vch then popstack stack else .error (.error .SCRIPT_ERR_VERIFY)

/-! ## Lock times -/

def checkLockTimeVerify (stack : List Valtype) : Eval Unit :=
  if !hasFlag ctx.flags SCRIPT_VERIFY_CHECKLOCKTIMEVERIFY then
    setErrorIf (hasFlag ctx.flags SCRIPT_VERIFY_DISCOURAGE_UPGRADABLE_NOPS)
      .SCRIPT_ERR_DISCOURAGE_UPGRADABLE_NOPS
  else do
    requireSize stack 1
    let vch ← stacktop stack 1
    let nLockTime ← ofVch vch ctx.fRequireMinimal 5
    setErrorIf (nLockTime < 0) .SCRIPT_ERR_NEGATIVE_LOCKTIME
    setErrorIf (!ctx.checker.checkLockTime nLockTime) .SCRIPT_ERR_UNSATISFIED_LOCKTIME

def checkSequenceVerify (stack : List Valtype) : Eval Unit :=
  if !hasFlag ctx.flags SCRIPT_VERIFY_CHECKSEQUENCEVERIFY then
    setErrorIf (hasFlag ctx.flags SCRIPT_VERIFY_DISCOURAGE_UPGRADABLE_NOPS)
      .SCRIPT_ERR_DISCOURAGE_UPGRADABLE_NOPS
  else do
    requireSize stack 1
    let vch ← stacktop stack 1
    let nSequence ← ofVch vch ctx.fRequireMinimal 5
    setErrorIf (nSequence < 0) .SCRIPT_ERR_NEGATIVE_LOCKTIME
    if nSequence.toNat &&& SEQUENCE_LOCKTIME_DISABLE_FLAG ≠ 0 then .ok ()
    else setErrorIf (!ctx.checker.checkSequence nSequence) .SCRIPT_ERR_UNSATISFIED_LOCKTIME

/-! ## Signatures -/

/-- A signature is dropped from the script code, but not in segwit scripts. -/
def dropSignature (scriptCode : CScript) (vchSig : Valtype) : CScript :=
  if ctx.sigversion = .SIGVERSION_BASE then findAndDelete scriptCode (pushData vchSig) else scriptCode

def checkEncodings (vchSig vchPubKey : Valtype) : Eval Unit := do
  checkSignatureEncoding ctx.crypto vchSig ctx.flags
  checkPubKeyEncoding vchPubKey ctx.flags ctx.sigversion

/-- `OP_CHECKSIG` and `OP_CHECKSIGVERIFY`. -/
def checkSigOp (fVerify : Bool) (pbegincodehash : CScript) (stack : List Valtype) :
    Eval (List Valtype) := do
  requireSize stack 2
  let vchSig ← stacktop stack 2
  let vchPubKey ← stacktop stack 1
  let scriptCode := dropSignature ctx pbegincodehash vchSig
  checkEncodings ctx vchSig vchPubKey
  let fSuccess := ctx.checker.checkSig vchSig vchPubKey scriptCode ctx.sigversion
  setErrorIf
    (!fSuccess && hasFlag ctx.flags SCRIPT_VERIFY_NULLFAIL && vchSig ≠ []) .SCRIPT_ERR_SIG_NULLFAIL
  let stack ← popstack stack
  let stack ← popstack stack
  verifyTop fVerify fSuccess .SCRIPT_ERR_CHECKSIGVERIFY (vchBool fSuccess :: stack)

/-- The loop of `OP_CHECKMULTISIG` that compares signatures and keys, from the top of the stack down:
keys and signatures that are left, and where they are. The result is `fSuccess` and the pairs for which
`CheckSig` was called. Before each round there are at least as many keys as signatures. -/
def multisigLoop (stack : List Valtype) (scriptCode : CScript) : Nat → Nat → Nat → Nat →
    Eval (Bool × List (Valtype × Valtype))
  | _, 0, _, _ => .ok (true, [])
  | 0, _ + 1, _, _ => .error .unfinished
  | nKeysCount + 1, nSigsCount + 1, ikey, isig => do
    let vchSig ← stacktop stack isig
    let vchPubKey ← stacktop stack ikey
    checkEncodings ctx vchSig vchPubKey
    let fOk := ctx.checker.checkSig vchSig vchPubKey scriptCode ctx.sigversion
    let nSigsCount := if fOk then nSigsCount else nSigsCount + 1
    if nKeysCount < nSigsCount then .ok (false, [(vchSig, vchPubKey)])
    else do
      let r ← multisigLoop stack scriptCode nKeysCount nSigsCount (ikey + 1)
        (if fOk then isig + 1 else isig)
      .ok (r.1, (vchSig, vchPubKey) :: r.2)

/-- The loop that takes the arguments off the stack; `fNullFail` says that signatures have to be
empty. -/
def multisigCleanUp (fNullFail : Bool) : Nat → Nat → List Valtype → Eval (List Valtype)
  | 0, _, stack => .ok stack
  | i + 1, ikey2, stack => do
    let vch ← stacktop stack 1
    setErrorIf (fNullFail && ikey2 = 0 && vch ≠ []) .SCRIPT_ERR_SIG_NULLFAIL
    let stack ← popstack stack
    multisigCleanUp fNullFail i (ikey2 - 1) stack

/-- `OP_CHECKMULTISIG` and `OP_CHECKMULTISIGVERIFY`: the stack and the number of operations. -/
def checkMultisigOp (fVerify : Bool) (pbegincodehash : CScript) (stack : List Valtype)
    (nOpCount : Nat) :
    Eval (List Valtype × Nat) := do
  requireSize stack 1
  let vch ← stacktop stack 1
  let bn ← scriptNumOf ctx vch
  setErrorIf (getint bn < 0 ∨ (MAX_PUBKEYS_PER_MULTISIG : Int) < getint bn) .SCRIPT_ERR_PUBKEY_COUNT
  let nKeysCount := (getint bn).toNat
  let nOpCount := nOpCount + nKeysCount
  setErrorIf (MAX_OPS_PER_SCRIPT < nOpCount) .SCRIPT_ERR_OP_COUNT
  let ikey := 2
  let i := ikey + nKeysCount
  requireSize stack i
  let vch ← stacktop stack i
  let bn ← scriptNumOf ctx vch
  setErrorIf (getint bn < 0 ∨ (nKeysCount : Int) < getint bn) .SCRIPT_ERR_SIG_COUNT
  let nSigsCount := (getint bn).toNat
  let isig := i + 1
  let i := isig + nSigsCount
  requireSize stack i
  let scriptCode ← (List.range nSigsCount).foldlM (fun scriptCode k => do
    let vchSig ← stacktop stack (isig + k)
    .ok (dropSignature ctx scriptCode vchSig)) pbegincodehash
  let r ← multisigLoop ctx stack scriptCode nKeysCount nSigsCount ikey isig
  let fSuccess := r.1
  let stack ← multisigCleanUp (!fSuccess && hasFlag ctx.flags SCRIPT_VERIFY_NULLFAIL) (i - 1)
    (nKeysCount + 2) stack
  requireSize stack 1
  let vch ← stacktop stack 1
  setErrorIf (hasFlag ctx.flags SCRIPT_VERIFY_NULLDUMMY && vch ≠ []) .SCRIPT_ERR_SIG_NULLDUMMY
  let stack ← popstack stack
  let stack ← verifyTop fVerify fSuccess .SCRIPT_ERR_CHECKMULTISIGVERIFY (vchBool fSuccess :: stack)
  .ok (stack, nOpCount)

/-! ## The machine -/

/-- The variables of the loop. What is left of the script stands for `pc`; the head of `vfExec` is the
innermost condition. -/
structure EvalState where
  pc : CScript
  pbegincodehash : CScript
  stack : List Valtype
  altstack : List Valtype := []
  vfExec : List Bool := []
  nOpCount : Nat := 0

/-- `OP_IF` and `OP_NOTIF`. -/
def ifOp (fNot fExec : Bool) (s : EvalState) : Eval EvalState :=
  if fExec then do
    setErrorIf (s.stack.length < 1) .SCRIPT_ERR_UNBALANCED_CONDITIONAL
    let vch ← stacktop s.stack 1
    setErrorIf (ctx.sigversion = .SIGVERSION_WITNESS_V0 && hasFlag ctx.flags SCRIPT_VERIFY_MINIMALIF &&
      (1 < vch.length || (vch.length = 1 && vch.getD 0 0 ≠ 1))) .SCRIPT_ERR_MINIMALIF
    let fValue := if fNot then !castToBool vch else castToBool vch
    let stack ← popstack s.stack
    .ok { s with stack := stack, vfExec := fValue :: s.vfExec }
  else .ok { s with vfExec := false :: s.vfExec }

/-- The new stack of an operation that changes nothing else. -/
def EvalState.withStack (s : EvalState) (x : Eval (List Valtype)) : Eval EvalState := do
  let stack ← x
  .ok { s with stack := stack }

/-- The `switch`. -/
def execute (opcode : Opcode) (fExec : Bool) (s : EvalState) : Eval EvalState :=
  match opcode with
  | .number n => .ok { s with stack := serialize n :: s.stack }
  | .OP_NOP => .ok s
  | .OP_CHECKLOCKTIMEVERIFY => do
    checkLockTimeVerify ctx s.stack
    .ok s
  | .OP_CHECKSEQUENCEVERIFY => do
    checkSequenceVerify ctx s.stack
    .ok s
  | .upgradableNop => do
    setErrorIf (hasFlag ctx.flags SCRIPT_VERIFY_DISCOURAGE_UPGRADABLE_NOPS)
      .SCRIPT_ERR_DISCOURAGE_UPGRADABLE_NOPS
    .ok s
  | .OP_IF => ifOp ctx false fExec s
  | .OP_NOTIF => ifOp ctx true fExec s
  | .OP_ELSE =>
    match s.vfExec with
    | [] => .error (.error .SCRIPT_ERR_UNBALANCED_CONDITIONAL)
    | fValue :: vfExec => .ok { s with vfExec := (!fValue) :: vfExec }
  | .OP_ENDIF =>
    match s.vfExec with
    | [] => .error (.error .SCRIPT_ERR_UNBALANCED_CONDITIONAL)
    | _ :: vfExec => .ok { s with vfExec := vfExec }
  | .OP_VERIFY => s.withStack (verifyOp s.stack)
  | .OP_RETURN => .error (.error .SCRIPT_ERR_OP_RETURN)
  | .OP_TOALTSTACK => do
    requireSize s.stack 1
    let vch ← stacktop s.stack 1
    let stack ← popstack s.stack
    .ok { s with stack := stack, altstack := vch :: s.altstack }
  | .OP_FROMALTSTACK => do
    setErrorIf (s.altstack.length < 1) .SCRIPT_ERR_INVALID_ALTSTACK_OPERATION
    let vch ← stacktop s.altstack 1
    let altstack ← popstack s.altstack
    .ok { s with stack := vch :: s.stack, altstack := altstack }
  | .stack op => s.withStack (stackOp op s.stack)
  | .OP_PICK => s.withStack (pickOp ctx false s.stack)
  | .OP_ROLL => s.withStack (pickOp ctx true s.stack)
  | .OP_EQUAL => s.withStack (equalOp false s.stack)
  | .OP_EQUALVERIFY => s.withStack (equalOp true s.stack)
  | .unary op => s.withStack (unaryOp ctx op s.stack)
  | .binary op => s.withStack (binaryOp ctx op s.stack)
  | .OP_WITHIN => s.withStack (within ctx s.stack)
  | .hash op => s.withStack (hashOp ctx op s.stack)
  | .OP_CODESEPARATOR => .ok { s with pbegincodehash := s.pc }
  | .OP_CHECKSIG => s.withStack (checkSigOp ctx false s.pbegincodehash s.stack)
  | .OP_CHECKSIGVERIFY => s.withStack (checkSigOp ctx true s.pbegincodehash s.stack)
  | .OP_CHECKMULTISIG => do
    let r ← checkMultisigOp ctx false s.pbegincodehash s.stack s.nOpCount
    .ok { s with stack := r.1, nOpCount := r.2 }
  | .OP_CHECKMULTISIGVERIFY => do
    let r ← checkMultisigOp ctx true s.pbegincodehash s.stack s.nOpCount
    .ok { s with stack := r.1, nOpCount := r.2 }
  | .bad => .error (.error .SCRIPT_ERR_BAD_OPCODE)

/-- `script.GetOp(pc, opcode, vchPushValue)`. -/
def readInstruction (pc : CScript) : Eval (UInt8 × Valtype × CScript) :=
  match getOp pc with
  | none => .error (.error .SCRIPT_ERR_BAD_OPCODE)
  | some r => .ok r

/-- A push, an operation, or an instruction that is skipped. -/
def dispatch (opcode : UInt8) (vchPushValue : Valtype) (s : EvalState) : Eval EvalState :=
  let fExec := s.vfExec.all id
  if fExec ∧ opcode ≤ OP_PUSHDATA4 then do
    setErrorIf (ctx.fRequireMinimal && !checkMinimalPush vchPushValue opcode) .SCRIPT_ERR_MINIMALDATA
    .ok { s with stack := vchPushValue :: s.stack }
  else if fExec ∨ 0x63 ≤ opcode ∧ opcode ≤ 0x68 then execute ctx (opcodeOf opcode) fExec s
  else .ok s

/-- One round of the loop. -/
def evalStep (s : EvalState) : Eval EvalState := do
  let (opcode, vchPushValue, pc) ← readInstruction s.pc
  setErrorIf (MAX_SCRIPT_ELEMENT_SIZE < vchPushValue.length) .SCRIPT_ERR_PUSH_SIZE
  let nOpCount := if OP_16 < opcode then s.nOpCount + 1 else s.nOpCount
  setErrorIf (OP_16 < opcode ∧ MAX_OPS_PER_SCRIPT < nOpCount) .SCRIPT_ERR_OP_COUNT
  setErrorIf (opcode ∈ disabledOpcodes) .SCRIPT_ERR_DISABLED_OPCODE
  let s ← dispatch ctx opcode vchPushValue { s with pc := pc, nOpCount := nOpCount }
  setErrorIf (MAX_STACK_SIZE < s.stack.length + s.altstack.length) .SCRIPT_ERR_STACK_SIZE
  .ok s

/-- The loop, for so many rounds. -/
def evalLoop : Nat → EvalState → Eval EvalState
  | rounds, s =>
    if s.pc = [] then .ok s
    else match rounds with
      | 0 => .error .unfinished
      | rounds + 1 => do
        let s ← evalStep ctx s
        evalLoop rounds s

/-- The variables before the first round. -/
def EvalState.start (stack : List Valtype) (script : CScript) : EvalState where
  pc := script
  pbegincodehash := script
  stack := stack

/-- `EvalScript`: the stack afterwards. -/
def evalScript (stack : List Valtype) (script : CScript) : Eval (List Valtype) := do
  setErrorIf (MAX_SCRIPT_SIZE < script.length) .SCRIPT_ERR_SCRIPT_SIZE
  let s ← evalLoop ctx script.length (.start stack script)
  setErrorIf (s.vfExec ≠ []) .SCRIPT_ERR_UNBALANCED_CONDITIONAL
  .ok s.stack

end

end Chratos
