import Chratos.Script.Interpreter

/-!
# Chratos — resources of `EvalScript`

A script cannot make the interpreter run for ever, read beyond its stacks or fill memory. Every
operation tests the size of the stack before it reads, what it pushes is small, and the sizes of
both stacks and the number of operations are tested in every round.

* `Sized n stack` — at least `n` elements, none of them too long; each access to the stack has a rule of
  `Outcome.Ends` that says how it changes `n`, and an operation is a chain of such rules.
-/

namespace Chratos

open Outcome List ScriptNum

/-! ## Stacks -/

/-- The program returns such a value, or fails in an orderly way. -/
abbrev Orderly {α : Type} (Q : α → Prop) (x : Eval α) : Prop := Ends Q EvalFailure.Orderly x

/-- No element is too long. -/
def Fits (stack : List Valtype) : Prop := ∀ vch ∈ stack, vch.length ≤ MAX_SCRIPT_ELEMENT_SIZE

/-- At least so many elements, none of them too long. -/
def Sized (n : Nat) (stack : List Valtype) : Prop := n ≤ stack.length ∧ Fits stack

section

variable {n i j : Nat} {vch : Valtype} {stack : List Valtype}

theorem Fits.sized (h : Fits stack) : Sized 0 stack := ⟨Nat.zero_le _, h⟩

theorem ends_fits {x : Eval (List Valtype)} (h : Orderly (Sized n) x) : Orderly Fits x :=
  h.mono fun _ hstack => hstack.2

theorem Sized.cons (hvch : vch.length ≤ MAX_SCRIPT_ELEMENT_SIZE) (h : Sized n stack) :
    Sized (n + 1) (vch :: stack) :=
  ⟨Nat.succ_le_succ h.1, forall_mem_cons.mpr ⟨hvch, h.2⟩⟩

theorem ends_requireSize (h : Fits stack) (n : Nat) :
    Orderly (fun _ => Sized n stack) (requireSize stack n) := by
  refine (ends_setErrorIf _ _).mono ?_
  intro _ hlt
  exact ⟨not_lt.mp (of_decide_eq_false hlt), h⟩

theorem ends_stacktop (h : Sized n stack) (hi : 1 ≤ i ∧ i ≤ n) :
    Orderly (fun vch => vch.length ≤ MAX_SCRIPT_ELEMENT_SIZE) (stacktop stack i) := by
  obtain ⟨i, rfl⟩ := Nat.exists_eq_add_of_le' hi.1
  have hlt : i < stack.length := lt_of_lt_of_le (Nat.lt_of_succ_le hi.2) h.1
  rw [stacktop, getElem?_eq_getElem hlt]
  exact h.2 _ (getElem_mem hlt)

theorem ends_popstack (h : Sized (n + 1) stack) : Orderly (Sized n) (popstack stack) := by
  cases stack with
  | nil => exact absurd h.1 (Nat.not_succ_le_zero n)
  | cons vch stack => exact ⟨Nat.le_of_succ_le_succ h.1, (forall_mem_cons.mp h.2).2⟩

theorem ends_eraseTop (h : Sized (n + 1) stack) (hi : 1 ≤ i ∧ i ≤ n + 1) :
    Orderly (Sized n) (eraseTop stack i) := by
  obtain ⟨i, rfl⟩ := Nat.exists_eq_add_of_le' hi.1
  have hlt : i < stack.length := lt_of_lt_of_le (Nat.lt_of_succ_le hi.2) h.1
  have hlen := length_eraseIdx_of_lt hlt
  rw [eraseTop, if_pos hlt]
  refine ⟨?_, fun v hv => h.2 v (mem_of_mem_eraseIdx hv)⟩
  have := h.1
  omega

theorem ends_insertTop (hvch : vch.length ≤ MAX_SCRIPT_ELEMENT_SIZE) (h : Sized n stack) (hi : i ≤ n) :
    Orderly (Sized (n + 1)) (insertTop stack i vch) := by
  rw [insertTop, if_pos (le_trans hi h.1)]
  constructor
  · have := h.1
    rw [length_append, length_cons, length_take, length_drop]
    omega
  · exact forall_mem_append.mpr ⟨fun v hv => h.2 v (mem_of_mem_take hv),
      forall_mem_cons.mpr ⟨hvch, fun v hv => h.2 v (mem_of_mem_drop hv)⟩⟩

theorem Sized.set (hvch : vch.length ≤ MAX_SCRIPT_ELEMENT_SIZE) (h : Sized n stack) (i : Nat) :
    Sized n (stack.set i vch) := by
  constructor
  · rw [length_set]
    exact h.1
  · intro v hv
    rcases mem_or_eq_of_mem_set hv with hv | rfl
    · exact h.2 v hv
    · exact hvch

theorem ends_swapTop (h : Sized n stack) (hi : 1 ≤ i ∧ i ≤ n) (hj : 1 ≤ j ∧ j ≤ n) :
    Orderly (Sized n) (swapTop stack i j) := by
  refine (ends_stacktop h hi).bind fun vch1 hvch1 => ?_
  refine (ends_stacktop h hj).bind fun vch2 hvch2 => ?_
  exact (h.set hvch2 _).set hvch1 _

theorem ends_verifyTop (h : Sized (n + 1) stack) (fVerify fValue : Bool) (e : ScriptError) :
    Orderly Fits (verifyTop fVerify fValue e stack) := by
  refine .ite (fun _ => ?_) fun _ => h.2
  refine .ite (fun _ => ?_) fun _ => trivial
  exact ends_fits (ends_popstack h)

/-! ### Steps of an operation -/

variable {α : Type} {Q : α → Prop}

theorem Fits.require {f : Unit → Eval α} (h : Fits stack) (n : Nat)
    (hf : Sized n stack → Orderly Q (f ())) : Orderly Q (requireSize stack n >>= f) :=
  (ends_requireSize h n).bind fun _ => hf

theorem Sized.top {f : Valtype → Eval α} (h : Sized n stack) (hi : 1 ≤ i ∧ i ≤ n)
    (hf : ∀ vch, vch.length ≤ MAX_SCRIPT_ELEMENT_SIZE → Orderly Q (f vch)) :
    Orderly Q (stacktop stack i >>= f) :=
  (ends_stacktop h hi).bind hf

theorem Sized.pop {f : List Valtype → Eval α} (h : Sized (n + 1) stack)
    (hf : ∀ stack, Sized n stack → Orderly Q (f stack)) : Orderly Q (popstack stack >>= f) :=
  (ends_popstack h).bind hf

/-! ## What is pushed -/

theorem length_serialize_le (value : Int) : (serialize value).length ≤ MAX_SCRIPT_ELEMENT_SIZE :=
  le_trans (length_serialize value) (by decide)

theorem length_vchBool_le (b : Bool) : (vchBool b).length ≤ MAX_SCRIPT_ELEMENT_SIZE := by
  cases b with
  | false => decide
  | true => decide

theorem length_hashBytes_le (crypto : ScriptCrypto) (op : HashOp) (vch : Valtype) :
    (hashBytes crypto op vch).length ≤ MAX_SCRIPT_ELEMENT_SIZE := by
  cases op with
  | OP_RIPEMD160 => exact (crypto.length_ripemd160 vch).trans_le (by decide)
  | OP_SHA1 => exact (crypto.length_sha1 vch).trans_le (by decide)
  | OP_SHA256 => exact (crypto.length_sha256 vch).trans_le (by decide)
  | OP_HASH160 => exact (crypto.length_hash160 vch).trans_le (by decide)
  | OP_HASH256 => exact (crypto.length_hash256 vch).trans_le (by decide)

/-! ## Operations on the stack -/

theorem ends_stackOp (op : StackOp) (h : Fits stack) : Orderly Fits (stackOp op stack) := by
  cases op with
  | OP_2DROP =>
    refine h.require 2 fun h => ?_
    refine h.pop fun _ h => ?_
    exact ends_fits (ends_popstack h)
  | OP_2DUP =>
    refine h.require 2 fun h => ?_
    refine h.top (by decide) fun _ hvch1 => ?_
    refine h.top (by decide) fun _ hvch2 => ?_
    exact ((h.cons hvch1).cons hvch2).2
  | OP_3DUP =>
    refine h.require 3 fun h => ?_
    refine h.top (by decide) fun _ hvch1 => ?_
    refine h.top (by decide) fun _ hvch2 => ?_
    refine h.top (by decide) fun _ hvch3 => ?_
    exact (((h.cons hvch1).cons hvch2).cons hvch3).2
  | OP_2OVER =>
    refine h.require 4 fun h => ?_
    refine h.top (by decide) fun _ hvch1 => ?_
    refine h.top (by decide) fun _ hvch2 => ?_
    exact ((h.cons hvch1).cons hvch2).2
  | OP_2ROT =>
    refine h.require 6 fun h => ?_
    refine h.top (by decide) fun _ hvch1 => ?_
    refine h.top (by decide) fun _ hvch2 => ?_
    refine (ends_eraseTop h (by decide)).bind fun _ h => ?_
    refine (ends_eraseTop h (by decide)).bind fun _ h => ?_
    exact ((h.cons hvch1).cons hvch2).2
  | OP_2SWAP =>
    refine h.require 4 fun h => ?_
    refine (ends_swapTop h (by decide) (by decide)).bind fun _ h => ?_
    exact ends_fits (ends_swapTop h (by decide) (by decide))
  | OP_IFDUP =>
    refine h.require 1 fun h => ?_
    refine h.top (by decide) fun vch hvch => ?_
    cases castToBool vch with
    | false => exact h.2
    | true => exact (h.cons hvch).2
  | OP_DEPTH => exact (h.sized.cons (length_serialize_le _)).2
  | OP_DROP =>
    refine h.require 1 fun h => ?_
    exact ends_fits (ends_popstack h)
  | OP_DUP =>
    refine h.require 1 fun h => ?_
    refine h.top (by decide) fun _ hvch => ?_
    exact (h.cons hvch).2
  | OP_NIP =>
    refine h.require 2 fun h => ?_
    exact ends_fits (ends_eraseTop h (by decide))
  | OP_OVER =>
    refine h.require 2 fun h => ?_
    refine h.top (by decide) fun _ hvch => ?_
    exact (h.cons hvch).2
  | OP_ROT =>
    refine h.require 3 fun h => ?_
    refine (ends_swapTop h (by decide) (by decide)).bind fun _ h => ?_
    exact ends_fits (ends_swapTop h (by decide) (by decide))
  | OP_SWAP =>
    refine h.require 2 fun h => ?_
    exact ends_fits (ends_swapTop h (by decide) (by decide))
  | OP_TUCK =>
    refine h.require 2 fun h => ?_
    refine h.top (by decide) fun _ hvch => ?_
    exact ends_fits (ends_insertTop hvch h (by decide))
  | OP_SIZE =>
    refine h.require 1 fun h => ?_
    refine h.top (by decide) fun _ _ => ?_
    exact (h.cons (length_serialize_le _)).2

/-! ## Numbers -/

variable (ctx : EvalContext)

theorem ends_scriptNumOf (vch : Valtype) :
    Orderly (fun n => n.natAbs < 2 ^ 31) (scriptNumOf ctx vch) :=
  ends_ofVch vch _ 4

/-- A step that reads a number. -/
theorem Sized.num {f : Int → Eval α} (h : Sized n stack) (hi : 1 ≤ i ∧ i ≤ n)
    (hf : ∀ bn : Int, bn.natAbs < 2 ^ 31 → Orderly Q (f bn)) :
    Orderly Q (stacktop stack i >>= fun vch => scriptNumOf ctx vch >>= f) :=
  h.top hi fun vch _ => (ends_scriptNumOf ctx vch).bind hf

/-- A number of four bytes is far from the ends of an `int64_t`. -/
theorem ends_unaryNum (op : UnaryOp) {bn : Int} (hbn : bn.natAbs < 2 ^ 31) :
    Orderly (fun _ => True) (unaryNum op bn) := by
  cases op with
  | OP_1ADD => exact ends_addAssign hbn
  | OP_1SUB => exact ends_subAssign hbn
  | OP_NEGATE => exact ends_neg hbn
  | OP_ABS => exact .ite (fun _ => ends_neg hbn) fun _ => trivial
  | OP_NOT => exact trivial
  | OP_0NOTEQUAL => exact trivial

theorem ends_unaryOp (op : UnaryOp) (h : Fits stack) : Orderly Fits (unaryOp ctx op stack) := by
  refine h.require 1 fun h => ?_
  refine h.num ctx (by decide) fun _ hbn => ?_
  refine (ends_unaryNum op hbn).bind fun _ _ => ?_
  refine h.pop fun _ h => ?_
  exact (h.cons (length_serialize_le _)).2

theorem ends_binaryOp (op : BinaryOp) (h : Fits stack) : Orderly Fits (binaryOp ctx op stack) := by
  refine h.require 2 fun h => ?_
  refine h.num ctx (by decide) fun _ _ => ?_
  refine h.num ctx (by decide) fun _ _ => ?_
  refine h.pop fun _ h => ?_
  refine h.pop fun _ h => ?_
  exact ends_verifyTop (h.cons (length_serialize_le _)) _ _ _

theorem ends_within (h : Fits stack) : Orderly Fits (within ctx stack) := by
  refine h.require 3 fun h => ?_
  refine h.num ctx (by decide) fun _ _ => ?_
  refine h.num ctx (by decide) fun _ _ => ?_
  refine h.num ctx (by decide) fun _ _ => ?_
  refine h.pop fun _ h => ?_
  refine h.pop fun _ h => ?_
  refine h.pop fun _ h => ?_
  exact (h.cons (length_vchBool_le _)).2

/-! ## The other operations -/

theorem ends_hashOp (op : HashOp) (h : Fits stack) : Orderly Fits (hashOp ctx op stack) := by
  refine h.require 1 fun h => ?_
  refine h.top (by decide) fun vch _ => ?_
  refine h.pop fun _ h => ?_
  exact (h.cons (length_hashBytes_le _ _ _)).2

theorem ends_equalOp (fVerify : Bool) (h : Fits stack) : Orderly Fits (equalOp fVerify stack) := by
  refine h.require 2 fun h => ?_
  refine h.top (by decide) fun _ _ => ?_
  refine h.top (by decide) fun _ _ => ?_
  refine h.pop fun _ h => ?_
  refine h.pop fun _ h => ?_
  exact ends_verifyTop (h.cons (length_vchBool_le _)) _ _ _

theorem ends_pickOp (fRoll : Bool) (h : Fits stack) : Orderly Fits (pickOp ctx fRoll stack) := by
  refine h.require 2 fun h => ?_
  refine h.num ctx (by decide) fun bn _ => ?_
  refine h.pop fun stack h => ?_
  refine (ends_setErrorIf _ _).bind fun _ hrange => ?_
  -- the number that was read is a position of the stack
  have hn : ¬ (getint bn < 0 ∨ (stack.length : Int) ≤ getint bn) := of_decide_eq_false hrange
  have h : Sized ((getint bn).toNat + 1) stack := ⟨by omega, h.2⟩
  refine (ends_stacktop h ⟨by omega, le_refl _⟩).bind fun vch hvch => ?_
  refine .ite (fun _ => ?_) fun _ => ?_
  · refine (ends_eraseTop h ⟨by omega, le_refl _⟩).bind fun _ h => ?_
    exact (h.cons hvch).2
  · exact (h.cons hvch).2

theorem ends_verifyOp (h : Fits stack) : Orderly Fits (verifyOp stack) := by
  refine h.require 1 fun h => ?_
  refine h.top (by decide) fun _ _ => ?_
  refine .ite (fun _ => ?_) fun _ => trivial
  exact ends_fits (ends_popstack h)

theorem ends_check (c : Bool) (e : ScriptError) : Orderly (fun _ => True) (setErrorIf c e) :=
  (ends_setErrorIf c e).mono fun _ _ => trivial

theorem check_then {c : Bool} {e : ScriptError} {f : Unit → Eval α} (h : Orderly Q (f ())) :
    Orderly Q (setErrorIf c e >>= f) :=
  (ends_check c e).bind fun _ _ => h

theorem ends_checkLockTimeVerify (h : Fits stack) :
    Orderly (fun _ => True) (checkLockTimeVerify ctx stack) := by
  refine .ite (fun _ => ends_check _ _) fun _ => ?_
  refine h.require 1 fun h => ?_
  refine h.top (by decide) fun vch _ => ?_
  refine (ends_ofVch vch _ 5).bind fun _ _ => ?_
  exact check_then (ends_check _ _)

theorem ends_checkSequenceVerify (h : Fits stack) :
    Orderly (fun _ => True) (checkSequenceVerify ctx stack) := by
  refine .ite (fun _ => ends_check _ _) fun _ => ?_
  refine h.require 1 fun h => ?_
  refine h.top (by decide) fun vch _ => ?_
  refine (ends_ofVch vch _ 5).bind fun _ _ => ?_
  refine check_then ?_
  exact .ite (fun _ => trivial) fun _ => ends_check _ _

/-! ## Signatures -/

theorem ends_checkEncodings (vchSig vchPubKey : Valtype) :
    Orderly (fun _ => True) (checkEncodings ctx vchSig vchPubKey) := by
  refine .bind (Q := fun _ => True) ?_ fun _ _ => ?_
  · refine .ite (fun _ => trivial) fun _ => ?_
    refine check_then ?_
    refine .ite (fun _ => ?_) fun _ => ends_check _ _
    refine .bind (Q := fun _ => True) ?_ fun _ _ => ends_check _ _
    exact check_then (ends_check _ _)
  · exact check_then (ends_check _ _)

theorem ends_checkSigOp (fVerify : Bool) (pbegincodehash : CScript) (h : Fits stack) :
    Orderly Fits (checkSigOp ctx fVerify pbegincodehash stack) := by
  refine h.require 2 fun h => ?_
  refine h.top (by decide) fun vchSig _ => ?_
  refine h.top (by decide) fun vchPubKey _ => ?_
  refine (ends_checkEncodings ctx vchSig vchPubKey).bind fun _ _ => ?_
  refine check_then ?_
  refine h.pop fun _ h => ?_
  refine h.pop fun _ h => ?_
  exact ends_verifyTop (h.cons (length_vchBool_le _)) _ _ _

/-- The loop reads keys and signatures only, and there are always enough keys for another round. -/
theorem ends_multisigLoop (scriptCode : CScript) {nKeysCount nSigsCount ikey isig : Nat}
    (h : Sized n stack) (hle : nSigsCount ≤ nKeysCount) (hkey : 1 ≤ ikey ∧ ikey + nKeysCount ≤ n + 1)
    (hsig : 1 ≤ isig ∧ isig + nSigsCount ≤ n + 1) : Orderly (fun _ => True)
      (multisigLoop ctx stack scriptCode nKeysCount nSigsCount ikey isig) := by
  induction nKeysCount generalizing nSigsCount ikey isig with
  | zero =>
    have hzero : nSigsCount = 0 := Nat.le_zero.mp hle
    subst hzero
    exact trivial
  | succ nKeysCount ih =>
    cases nSigsCount with
    | zero => exact trivial
    | succ nSigsCount =>
      refine (ends_stacktop h ⟨hsig.1, by omega⟩).bind fun vchSig _ => ?_
      refine (ends_stacktop h ⟨hkey.1, by omega⟩).bind fun vchPubKey _ => ?_
      refine (ends_checkEncodings ctx vchSig vchPubKey).bind fun _ _ => ?_
      refine .ite (fun _ => trivial) fun hmore => ?_
      refine .bind (Q := fun _ => True) (ih ?_ ?_ ?_) fun _ _ => trivial
      · exact not_lt.mp hmore
      · omega
      · cases ctx.checker.checkSig vchSig vchPubKey scriptCode ctx.sigversion with
        | false => exact hsig
        | true =>
          simp only [if_true]
          omega

theorem ends_multisigCleanUp (fNullFail : Bool) (i ikey2 : Nat) (h : Sized (n + i) stack) :
    Orderly (Sized n) (multisigCleanUp fNullFail i ikey2 stack) := by
  induction i generalizing ikey2 stack with
  | zero => exact h
  | succ i ih =>
    refine (ends_stacktop h ⟨le_refl 1, by omega⟩).bind fun _ _ => ?_
    refine check_then ?_
    exact (ends_popstack h).bind fun _ h => ih _ h

/-- The number of keys that the top of the stack announces. -/
def multisigKeys (stack : List Valtype) : Nat :=
  match stacktop stack 1 >>= scriptNumOf ctx with
  | .error _ => 0
  | .ok bn => (getint bn).toNat

theorem ends_checkMultisigOp (fVerify : Bool) (pbegincodehash : CScript) (nOpCount : Nat)
    (h : Fits stack) :
    Ends (fun r => Fits r.1 ∧ r.2 = nOpCount + multisigKeys ctx stack ∧ r.2 ≤ MAX_OPS_PER_SCRIPT)
      EvalFailure.Orderly (checkMultisigOp ctx fVerify pbegincodehash stack nOpCount) := by
  refine h.require 1 fun h1 => ?_
  refine (ends_stacktop h1 (by decide)).returned.bind fun vch htop => ?_
  refine (ends_scriptNumOf ctx vch).returned.bind fun bnKeys hnum => ?_
  have hkeys : multisigKeys ctx stack = (getint bnKeys).toNat := by
    rw [multisigKeys, htop.1, ok_bind, hnum.1]
  rw [hkeys]
  refine check_then ?_
  refine (ends_setErrorIf _ _).bind fun _ hops => ?_
  have hops : nOpCount + (getint bnKeys).toNat ≤ MAX_OPS_PER_SCRIPT :=
    not_lt.mp (of_decide_eq_false hops)
  generalize (getint bnKeys).toNat = nKeysCount at hops ⊢
  refine h.require _ fun h2 => ?_
  refine (ends_stacktop h2 ⟨by omega, le_refl _⟩).bind fun vch _ => ?_
  refine (ends_scriptNumOf ctx vch).bind fun bnSigs _ => ?_
  refine (ends_setErrorIf _ _).bind fun _ hcount => ?_
  have hcount : ¬ (getint bnSigs < 0 ∨ (nKeysCount : Int) < getint bnSigs) :=
    of_decide_eq_false hcount
  have hle : (getint bnSigs).toNat ≤ nKeysCount := by omega
  generalize (getint bnSigs).toNat = nSigsCount at hle ⊢
  -- the stack has both counts, the keys and the signatures
  refine h.require _ fun h3 => ?_
  refine .bind (Q := fun _ => True) ?_ fun scriptCode _ => ?_
  · refine .foldlM (P := fun _ => True) ?_ trivial
    intro k hk _ _
    have hk := mem_range.mp hk
    exact (ends_stacktop h3 ⟨by omega, by omega⟩).bind fun _ _ => trivial
  · refine (ends_multisigLoop ctx scriptCode h3 hle ⟨by decide, by omega⟩ ⟨by omega, by omega⟩).bind ?_
    intro r _
    have hargs : Sized (1 + (2 + nKeysCount + 1 + nSigsCount - 1)) stack := ⟨by have := h3.1; omega, h⟩
    refine (ends_multisigCleanUp _ _ _ hargs).bind fun stack hrest => ?_
    refine hrest.2.require 1 fun hrest => ?_
    refine hrest.top (by decide) fun _ _ => ?_
    refine check_then ?_
    refine hrest.pop fun _ hrest => ?_
    refine (ends_verifyTop (hrest.cons (length_vchBool_le r.1)) _ _ _).bind fun _ hresult => ?_
    exact ⟨hresult, rfl, hops⟩

end

/-! ## One round -/

section

variable (ctx : EvalContext)

/-- The operations that a round counts beyond its own: the keys of a multisig. -/
def keyCount (opcode : Opcode) (stack : List Valtype) : Nat :=
  match opcode with
  | .OP_CHECKMULTISIG => multisigKeys ctx stack
  | .OP_CHECKMULTISIGVERIFY => multisigKeys ctx stack
  | _ => 0

/-- What an opcode does to the variables that are limited. -/
structure Executed (opcode : Opcode) (s s' : EvalState) : Prop where
  pc : s'.pc = s.pc
  stack : Fits s'.stack
  altstack : Fits s'.altstack
  counted : s'.nOpCount = s.nOpCount + keyCount ctx opcode s.stack
  bounded : s'.nOpCount ≤ MAX_OPS_PER_SCRIPT

/-- Elements and operations within their limits; the sizes of the stacks are tested last. -/
structure Bounded (s : EvalState) : Prop where
  stack : Fits s.stack
  altstack : Fits s.altstack
  ops : s.nOpCount ≤ MAX_OPS_PER_SCRIPT

variable {ctx} {s : EvalState} {opcode : Opcode}

section

variable (h : Bounded s) (hkeys : keyCount ctx opcode s.stack = 0)
include h hkeys

theorem Bounded.executed : Executed ctx opcode s s := by
  refine ⟨rfl, h.stack, h.altstack, ?_, h.ops⟩
  rw [hkeys, add_zero]

theorem Bounded.withStack {x : Eval (List Valtype)} (hx : Orderly Fits x) :
    Orderly (Executed ctx opcode s) (s.withStack x) := by
  refine hx.bind fun stack hstack => ?_
  exact { h.executed hkeys with stack := hstack }

theorem ends_ifOp (fNot fExec : Bool) :
    Orderly (Executed ctx opcode s) (ifOp ctx fNot fExec s) := by
  refine .ite (fun _ => ?_) fun _ => { h.executed hkeys with }
  refine (ends_setErrorIf _ _).bind fun _ hsize => ?_
  have hstack : Sized 1 s.stack := ⟨not_lt.mp (of_decide_eq_false hsize), h.stack⟩
  refine hstack.top (by decide) fun _ _ => ?_
  refine check_then ?_
  refine hstack.pop fun _ hrest => ?_
  exact { h.executed hkeys with stack := hrest.2 }

end

theorem ends_multisig (h : Bounded s) (fVerify : Bool)
    (hkeys : keyCount ctx opcode s.stack = multisigKeys ctx s.stack) :
    Orderly (Executed ctx opcode s) (do
      let r ← checkMultisigOp ctx fVerify s.pbegincodehash s.stack s.nOpCount
      .ok { s with stack := r.1, nOpCount := r.2 }) := by
  refine (ends_checkMultisigOp ctx fVerify _ _ h.stack).bind fun r hr => ?_
  refine ⟨rfl, hr.1, h.altstack, ?_, hr.2.2⟩
  rw [hkeys]
  exact hr.2.1

/-- **One opcode** stays within the limits and reads nothing that is not there. -/
theorem ends_execute (h : Bounded s) (opcode : Opcode) (fExec : Bool) :
    Orderly (Executed ctx opcode s) (execute ctx opcode fExec s) := by
  cases opcode with
  | number n =>
    exact { h.executed rfl with stack := (h.stack.sized.cons (length_serialize_le n)).2 }
  | OP_NOP => exact h.executed rfl
  | OP_CHECKLOCKTIMEVERIFY =>
    exact (ends_checkLockTimeVerify ctx h.stack).bind fun _ _ => h.executed rfl
  | OP_CHECKSEQUENCEVERIFY =>
    exact (ends_checkSequenceVerify ctx h.stack).bind fun _ _ => h.executed rfl
  | upgradableNop => exact check_then (h.executed rfl)
  | OP_IF => exact ends_ifOp h rfl false fExec
  | OP_NOTIF => exact ends_ifOp h rfl true fExec
  | OP_ELSE =>
    rw [execute]
    cases s.vfExec with
    | nil => exact trivial
    | cons fValue vfExec => exact { h.executed rfl with }
  | OP_ENDIF =>
    rw [execute]
    cases s.vfExec with
    | nil => exact trivial
    | cons fValue vfExec => exact { h.executed rfl with }
  | OP_VERIFY => exact h.withStack rfl (ends_verifyOp h.stack)
  | OP_RETURN => exact trivial
  | OP_TOALTSTACK =>
    refine h.stack.require 1 fun hstack => ?_
    refine hstack.top (by decide) fun vch hvch => ?_
    refine hstack.pop fun stack hrest => ?_
    exact { h.executed rfl with stack := hrest.2, altstack := (h.altstack.sized.cons hvch).2 }
  | OP_FROMALTSTACK =>
    refine (ends_setErrorIf _ _).bind fun _ hsize => ?_
    have haltstack : Sized 1 s.altstack := ⟨not_lt.mp (of_decide_eq_false hsize), h.altstack⟩
    refine haltstack.top (by decide) fun vch hvch => ?_
    refine haltstack.pop fun altstack hrest => ?_
    exact { h.executed rfl with stack := (h.stack.sized.cons hvch).2, altstack := hrest.2 }
  | stack op => exact h.withStack rfl (ends_stackOp op h.stack)
  | OP_PICK => exact h.withStack rfl (ends_pickOp ctx false h.stack)
  | OP_ROLL => exact h.withStack rfl (ends_pickOp ctx true h.stack)
  | OP_EQUAL => exact h.withStack rfl (ends_equalOp false h.stack)
  | OP_EQUALVERIFY => exact h.withStack rfl (ends_equalOp true h.stack)
  | unary op => exact h.withStack rfl (ends_unaryOp ctx op h.stack)
  | binary op => exact h.withStack rfl (ends_binaryOp ctx op h.stack)
  | OP_WITHIN => exact h.withStack rfl (ends_within ctx h.stack)
  | hash op => exact h.withStack rfl (ends_hashOp ctx op h.stack)
  | OP_CODESEPARATOR => exact { h.executed rfl with }
  | OP_CHECKSIG => exact h.withStack rfl (ends_checkSigOp ctx false _ h.stack)
  | OP_CHECKSIGVERIFY => exact h.withStack rfl (ends_checkSigOp ctx true _ h.stack)
  | OP_CHECKMULTISIG => exact ends_multisig h false rfl
  | OP_CHECKMULTISIGVERIFY => exact ends_multisig h true rfl
  | bad => exact trivial

theorem keyCount_of_lt {opcode : UInt8} (h : opcode.toNat < 0x69) (stack : List Valtype) :
    keyCount ctx (opcodeOf opcode) stack = 0 := by
  have hall : ∀ n < 0x69, opcodeOf (UInt8.ofNat n) ≠ .OP_CHECKMULTISIG ∧
      opcodeOf (UInt8.ofNat n) ≠ .OP_CHECKMULTISIGVERIFY := by decide
  have hopcode := hall opcode.toNat h
  rw [UInt8.ofNat_toNat] at hopcode
  unfold keyCount
  split
  · exact absurd ‹_› hopcode.1
  · exact absurd ‹_› hopcode.2
  · rfl

/-- What a round does after the instruction has been read and counted. -/
theorem ends_dispatch (h : Bounded s) (opcode : UInt8) {vchPushValue : Valtype}
    (hpush : vchPushValue.length ≤ MAX_SCRIPT_ELEMENT_SIZE) :
    Ends (fun s' => s'.pc = s.pc ∧ Bounded s' ∧ s'.nOpCount =
        s.nOpCount + if s.vfExec.all id then keyCount ctx (opcodeOf opcode) s.stack else 0)
      EvalFailure.Orderly (dispatch ctx opcode vchPushValue s) := by
  refine .ite (fun hpushed => ?_) fun _ => Ends.ite (fun hrun => ?_) fun hskip => ?_
  · -- a push
    have hlt : opcode.toNat < 0x69 := lt_of_le_of_lt hpushed.2 (by decide)
    refine check_then ?_
    refine ⟨rfl, ⟨(h.stack.sized.cons hpush).2, h.altstack, h.ops⟩, ?_⟩
    rw [keyCount_of_lt hlt, ite_self]
    rfl
  · refine (ends_execute h (opcodeOf opcode) _).mono fun s' hs' => ?_
    refine ⟨hs'.pc, ⟨hs'.stack, hs'.altstack, hs'.bounded⟩, ?_⟩
    rw [hs'.counted]
    rcases hrun with hexec | hcontrol
    · rw [if_pos hexec]
    · -- opcodes of conditions are looked at in branches that are not executed, too
      have hlt : opcode.toNat < 0x69 := lt_of_le_of_lt hcontrol.2 (by decide)
      rw [keyCount_of_lt hlt, ite_self]
  · have hexec : ¬ s.vfExec.all id = true := fun hexec => hskip (.inl hexec)
    rw [if_neg hexec]
    exact ⟨rfl, h, rfl⟩

variable (ctx) in
/-- The operations that a round counts: an opcode behind the constants, and keys. -/
def roundCount (s : EvalState) : Nat :=
  match getOp s.pc with
  | none => 0
  | some (opcode, _, _) =>
    (if OP_16 < opcode then 1 else 0) +
      if s.vfExec.all id then keyCount ctx (opcodeOf opcode) s.stack else 0

/-- All limits at once. -/
structure WithinLimits (s : EvalState) : Prop extends Bounded s where
  size : s.stack.length + s.altstack.length ≤ MAX_STACK_SIZE

theorem ends_readInstruction (pc : CScript) :
    Orderly (fun r => getOp pc = some r) (readInstruction pc) := by
  rw [readInstruction]
  cases getOp pc with
  | none => exact trivial
  | some r => exact rfl

/-- **One round** keeps the limits, makes the script shorter and counts its operations. -/
theorem ends_evalStep (h : WithinLimits s) :
    Ends (fun s' =>
      WithinLimits s' ∧ s'.pc.length < s.pc.length ∧ s'.nOpCount = s.nOpCount + roundCount ctx s)
      EvalFailure.Orderly (evalStep ctx s) := by
  refine (ends_readInstruction s.pc).bind ?_
  rintro ⟨opcode, vchPushValue, pc⟩ hread
  refine (ends_setErrorIf _ _).bind fun _ hpush => ?_
  have hpush := not_lt.mp (of_decide_eq_false hpush)
  refine (ends_setErrorIf _ _).bind fun _ hops => ?_
  have hops := of_decide_eq_false hops
  refine check_then ?_
  -- the state with which the instruction is executed
  have hbounded : Bounded
      { s with pc := pc, nOpCount := if OP_16 < opcode then s.nOpCount + 1 else s.nOpCount } := by
    refine ⟨h.stack, h.altstack, ?_⟩
    by_cases hcounted : OP_16 < opcode
    · exact not_lt.mp fun hlt => hops ⟨hcounted, hlt⟩
    · rw [if_neg hcounted]
      exact h.ops
  refine (ends_dispatch hbounded opcode hpush).bind fun s' hs' => ?_
  refine (ends_setErrorIf _ _).bind fun _ hsize => ?_
  refine ⟨⟨hs'.2.1, not_lt.mp (of_decide_eq_false hsize)⟩, ?_, ?_⟩
  · rw [hs'.1]
    exact getOp_length_lt hread
  · rw [hs'.2.2, roundCount, hread]
    dsimp only
    by_cases hcounted : OP_16 < opcode
    · rw [if_pos hcounted, if_pos hcounted, add_assoc]
    · rw [if_neg hcounted, if_neg hcounted, zero_add]

end

/-! ## A run -/

section

variable (ctx : EvalContext) (stack : List Valtype) (script : CScript)

/-- The states at the head of the loop, with the operations counted on the way. -/
inductive LoopHead : Nat → EvalState → Prop where
  | start : LoopHead 0 (.start stack script)
  | step {counted : Nat} {s s' : EvalState} (hhead : LoopHead counted s) (hmore : s.pc ≠ [])
      (hstep : evalStep ctx s = .ok s') : LoopHead (counted + roundCount ctx s) s'

variable {ctx stack script} {counted rounds : Nat} {s : EvalState}

section

variable (h : LoopHead ctx stack script counted s) (hsize : stack.length ≤ MAX_STACK_SIZE)
  (hfits : Fits stack)

include h hsize hfits

theorem LoopHead.limits : WithinLimits s ∧ s.nOpCount = counted := by
  induction h with
  | start => exact ⟨⟨⟨hfits, nofun, Nat.zero_le _⟩, hsize⟩, rfl⟩
  | step _ _ hstep ih =>
    have hround := (ends_evalStep ih.1).of_eq_ok hstep
    exact ⟨hround.1, by rw [hround.2.2, ih.2]⟩

/-- **A run** ends within as many rounds as the script has bytes. -/
theorem ends_evalLoop (hrounds : s.pc.length ≤ rounds) :
    Ends (fun s' => s'.pc = [] ∧ ∃ total, LoopHead ctx stack script total s') EvalFailure.Orderly
      (evalLoop ctx rounds s) := by
  induction rounds generalizing counted s with
  | zero =>
    have hend : s.pc = [] := length_eq_zero_iff.mp (Nat.le_zero.mp hrounds)
    rw [evalLoop, if_pos hend]
    exact ⟨hend, counted, h⟩
  | succ rounds ih =>
    refine .ite (fun hend => ⟨hend, counted, h⟩) fun hmore => ?_
    refine (ends_evalStep (h.limits hsize hfits).1).returned.bind fun s' hs' => ?_
    exact ih (h.step hmore hs'.1) (Nat.le_of_lt_succ (lt_of_lt_of_le hs'.2.2.1 hrounds))

end

end

/-! ## The loops of `FindAndDelete` -/

section

variable {b pc : CScript} {rounds : Nat}

theorem length_skipMatches_le (b : CScript) (rounds : Nat) (pc : CScript) (nFound : Nat) :
    (skipMatches b rounds pc nFound).1.length ≤ pc.length := by
  induction rounds generalizing pc nFound with
  | zero => exact le_refl _
  | succ rounds ih =>
    rw [skipMatches]
    split
    · refine le_trans (ih _ _) ?_
      rw [length_drop]
      exact Nat.sub_le _ _
    · exact le_refl _

/-- The inner loop ends because there is no match. -/
theorem skipMatches_exit (hb : b ≠ []) (h : pc.length ≤ rounds) (nFound : Nat) :
    ¬ b <+: (skipMatches b rounds pc nFound).1 := by
  induction rounds generalizing pc nFound with
  | zero =>
    have hend : pc = [] := length_eq_zero_iff.mp (Nat.le_zero.mp h)
    rw [skipMatches, hend, prefix_nil]
    exact hb
  | succ rounds ih =>
    rw [skipMatches]
    split
    · have hpos : 0 < b.length := length_pos_iff.mpr hb
      apply ih
      rw [length_drop]
      omega
    · assumption

/-- The outer loop ends because there is no instruction. -/
theorem findAndDeleteLoop_exit (h : pc.length < rounds) (pc2 result : CScript) (nFound : Nat) :
    getOp (findAndDeleteLoop b rounds pc2 pc result nFound).2.1 = none := by
  induction rounds generalizing pc pc2 result nFound with
  | zero => exact absurd h (Nat.not_lt_zero _)
  | succ rounds ih =>
    rw [findAndDeleteLoop]
    split
    · assumption
    · rename_i hread
      have hskip := length_skipMatches_le b pc.length pc nFound
      have hnext := getOp_length_lt hread
      exact ih (by omega) _ _ _

end

/-- **Resources of `EvalScript`.** From a stack within its limits, every state at the head of the
loop has at most 1000 elements on both stacks and none of more than 520 bytes, and at most 201
operations have been counted on the way, the keys of a multisig among them. The run ends, with the
stack of such a state or with an error: no access to a stack is out of range and no assertion fails.
The loops that drop a signature from the script end by their own conditions. -/
theorem evalScript_bounds (ctx : EvalContext) (script : CScript) (stack : List Valtype)
    (hsize : stack.length ≤ MAX_STACK_SIZE)
    (hfits : ∀ vch ∈ stack, vch.length ≤ MAX_SCRIPT_ELEMENT_SIZE) :
    (∀ counted s, LoopHead ctx stack script counted s →
      s.stack.length + s.altstack.length ≤ MAX_STACK_SIZE ∧
      (∀ vch ∈ s.stack ++ s.altstack, vch.length ≤ MAX_SCRIPT_ELEMENT_SIZE) ∧
      counted ≤ MAX_OPS_PER_SCRIPT) ∧
    Ends (fun result => ∃ counted s, LoopHead ctx stack script counted s ∧ s.pc = [] ∧ result = s.stack)
      EvalFailure.Orderly (evalScript ctx stack script) ∧ ∀ b code : CScript, b ≠ [] →
      getOp (findAndDeleteLoop b (code.length + 1) code code [] 0).2.1 = none ∧
      ∀ pc nFound, ¬ b <+: (skipMatches b pc.length pc nFound).1 := by
  refine ⟨?_, ?_, ?_⟩
  · intro counted s hhead
    obtain ⟨hlimits, hcounted⟩ := hhead.limits hsize hfits
    refine ⟨hlimits.size, forall_mem_append.mpr ⟨hlimits.stack, hlimits.altstack⟩, ?_⟩
    rw [← hcounted]
    exact hlimits.ops
  · refine check_then ?_
    refine (ends_evalLoop .start hsize hfits (le_refl _)).bind fun s hs => ?_
    obtain ⟨hend, counted, hhead⟩ := hs
    refine check_then ?_
    exact ⟨counted, s, hhead, hend, rfl⟩
  · intro b code hb
    exact ⟨findAndDeleteLoop_exit (Nat.lt_succ_self _) _ _ _,
      fun pc nFound => skipMatches_exit hb (le_refl _) nFound⟩

/-- `OP_DUP OP_ADD` on the number 2. -/
theorem evalScript_bounds_dup_add :
    evalScript ⟨default, default, 0, .SIGVERSION_BASE⟩ [[2]] [OP_DUP, 0x93] = .ok [[4]] ∧
      ∃ counted s, LoopHead ⟨default, default, 0, .SIGVERSION_BASE⟩ [[2]] [OP_DUP, 0x93] counted s ∧
        s.pc = [] ∧ [[4]] = s.stack := by
  have hrun : evalScript ⟨default, default, 0, .SIGVERSION_BASE⟩ [[2]] [OP_DUP, 0x93] = .ok [[4]] := by
    decide +kernel
  have hbounds := evalScript_bounds ⟨default, default, 0, .SIGVERSION_BASE⟩ [OP_DUP, 0x93] [[2]]
    (by decide) (by decide)
  exact ⟨hrun, hbounds.2.1.of_eq_ok hrun⟩

end Chratos
