import Chratos.Script.VerifyScript

/-!
# Chratos — script flags are soft forks

A flag adds checks to the evaluation of a script, so that a run under more flags can only fail earlier.
Two things have to be arranged for: an opcode that a flag turns from a `NOP` into a check is still a
`NOP` without it, unless using such opcodes is discouraged; and what `CLEANSTACK` and `WITNESS` ask of
the stack and the witness presupposes the evaluations that `P2SH` and `WITNESS` add.
-/

namespace Chratos

open Outcome ScriptNum

/-! ## Fewer flags -/

variable {F G mask : ScriptFlags}

theorem hasFlag_of_subset (hsub : F &&& G = F) (h : hasFlag F mask = true) :
    hasFlag G mask = true := by
  rw [hasFlag, decide_eq_true_iff] at h ⊢
  intro hzero
  apply h
  rw [← hsub, UInt32.and_assoc, hzero, UInt32.and_zero]

/-- Fewer flags, for which an opcode that only the others check is not discouraged. -/
structure Fewer (F G : ScriptFlags) : Prop where
  subset : ∀ {mask}, hasFlag F mask = true → hasFlag G mask = true
  lockTime : hasFlag F SCRIPT_VERIFY_DISCOURAGE_UPGRADABLE_NOPS = true →
    hasFlag F SCRIPT_VERIFY_CHECKLOCKTIMEVERIFY = hasFlag G SCRIPT_VERIFY_CHECKLOCKTIMEVERIFY
  sequence : hasFlag F SCRIPT_VERIFY_DISCOURAGE_UPGRADABLE_NOPS = true →
    hasFlag F SCRIPT_VERIFY_CHECKSEQUENCEVERIFY = hasFlag G SCRIPT_VERIFY_CHECKSEQUENCEVERIFY

def EvalContext.withFlags (ctx : EvalContext) (flags : ScriptFlags) : EvalContext :=
  { ctx with flags := flags }

theorem Fewer.eq_false (h : Fewer F G) (hG : hasFlag G mask = false) : hasFlag F mask = false := by
  cases hF : hasFlag F mask with
  | false => rfl
  | true => exact (h.subset hF).symm.trans hG

/-- A check that a flag adds. -/
theorem Fewer.guarded (h : Fewer F G) (mask : ScriptFlags) (p q : Bool) (e : ScriptError) :
    Relaxes (setErrorIf (p && hasFlag F mask && q) e) (setErrorIf (p && hasFlag G mask && q) e) := by
  apply relaxes_setErrorIf
  simp only [Bool.and_eq_false_iff]
  exact Or.imp_left (Or.imp_right h.eq_false)

theorem Fewer.check (h : Fewer F G) (mask : ScriptFlags) (p : Bool) (e : ScriptError) :
    Relaxes (setErrorIf (hasFlag F mask && p) e) (setErrorIf (hasFlag G mask && p) e) :=
  h.guarded mask true p e

/-- What a flag adds to a program: it may be left out. -/
theorem Fewer.added {β : Type} (h : Fewer F G) {x x' y y' : Eval β}
    (hflag : hasFlag F mask = true → Relaxes x y) (hleft : Relaxes x' y) (hrest : Relaxes x' y') :
    Relaxes (if hasFlag F mask then x else x') (if hasFlag G mask then y else y') := by
  cases hF : hasFlag F mask with
  | true =>
    rw [h.subset hF]
    exact hflag hF
  | false =>
    -- without the flag nothing is added, whether or not the other run does
    cases hasFlag G mask with
    | false => exact hrest
    | true => exact hleft

/-- Checks without a result may be left out. -/
theorem relaxes_ok (x : Eval Unit) : Relaxes (.ok ()) x := fun _ _ => rfl

/-- An opcode that a flag turns into a check: without the flag it does nothing, unless that is
discouraged, and then both runs have the flag or neither. -/
theorem Fewer.upgraded (h : Fewer F G) {x y : Eval Unit} (hxy : Relaxes x y)
    (hagree : hasFlag F SCRIPT_VERIFY_DISCOURAGE_UPGRADABLE_NOPS = true →
      hasFlag F mask = hasFlag G mask) : Relaxes (if !hasFlag F mask then
        setErrorIf (hasFlag F SCRIPT_VERIFY_DISCOURAGE_UPGRADABLE_NOPS)
          .SCRIPT_ERR_DISCOURAGE_UPGRADABLE_NOPS else x) (if !hasFlag G mask then
        setErrorIf (hasFlag G SCRIPT_VERIFY_DISCOURAGE_UPGRADABLE_NOPS)
          .SCRIPT_ERR_DISCOURAGE_UPGRADABLE_NOPS else y) := by
  cases hF : hasFlag F mask with
  | true =>
    rw [h.subset hF]
    exact hxy
  | false =>
    cases hnops : hasFlag F SCRIPT_VERIFY_DISCOURAGE_UPGRADABLE_NOPS with
    | false => exact relaxes_ok _
    | true =>
      rw [← hagree hnops, hF, h.subset hnops]
      exact .refl _

theorem relaxes_multisigCleanUp {f g : Bool} (hfg : f = true → g = true) (i ikey2 : Nat)
    (stack : List Valtype) :
      Relaxes (multisigCleanUp f i ikey2 stack) (multisigCleanUp g i ikey2 stack) := by
  induction i generalizing ikey2 stack with
  | zero => exact .refl _
  | succ i ih =>
    refine .after fun vch => ?_
    refine .bind (relaxes_setErrorIf _ _ ?_) fun _ => .after fun _ => ih _ _
    intro hg
    cases f with
    | false => rfl
    | true => rwa [hfg rfl] at hg

section

variable {ctx : EvalContext} {G : ScriptFlags} (h : Fewer ctx.flags G)

include h

/-! ## Numbers and encodings -/

theorem relaxes_scriptNumOf (vch : Valtype) :
    Relaxes (scriptNumOf ctx vch) (scriptNumOf (ctx.withFlags G) vch) :=
  relaxes_ofVch vch h.subset _

theorem relaxes_checkEncodings (vchSig vchPubKey : Valtype) :
    Relaxes (checkEncodings ctx vchSig vchPubKey)
      (checkEncodings (ctx.withFlags G) vchSig vchPubKey) := by
  refine .bind ?_ fun _ => ?_
  · refine .ite (fun _ => .refl _) fun _ => ?_
    refine (h.check _ _ _).bind fun _ => ?_
    have hlast :=
      h.check SCRIPT_VERIFY_STRICTENC (!isDefinedHashtypeSignature vchSig) .SCRIPT_ERR_SIG_HASHTYPE
    refine h.added (fun _ => ?_) (.of_bind fun _ => hlast) hlast
    exact .after fun _ => hlast
  · refine (h.check _ _ _).bind fun _ => ?_
    rw [Bool.and_assoc, Bool.and_assoc]
    exact h.check _ _ _

/-! ## Opcodes -/

theorem relaxes_unaryOp (op : UnaryOp) (stack : List Valtype) :
    Relaxes (unaryOp ctx op stack) (unaryOp (ctx.withFlags G) op stack) := by
  refine .after fun _ => ?_
  refine .after fun vch => ?_
  exact (relaxes_scriptNumOf h vch).before

theorem relaxes_binaryOp (op : BinaryOp) (stack : List Valtype) :
    Relaxes (binaryOp ctx op stack) (binaryOp (ctx.withFlags G) op stack) := by
  refine .after fun _ => ?_
  refine .after fun vch1 => ?_
  refine (relaxes_scriptNumOf h vch1).bind fun _ => ?_
  refine .after fun vch2 => ?_
  exact (relaxes_scriptNumOf h vch2).before

theorem relaxes_within (stack : List Valtype) :
    Relaxes (within ctx stack) (within (ctx.withFlags G) stack) := by
  refine .after fun _ => ?_
  refine .after fun vch1 => ?_
  refine (relaxes_scriptNumOf h vch1).bind fun _ => ?_
  refine .after fun vch2 => ?_
  refine (relaxes_scriptNumOf h vch2).bind fun _ => ?_
  refine .after fun vch3 => ?_
  exact (relaxes_scriptNumOf h vch3).before

theorem relaxes_pickOp (fRoll : Bool) (stack : List Valtype) :
    Relaxes (pickOp ctx fRoll stack) (pickOp (ctx.withFlags G) fRoll stack) := by
  refine .after fun _ => ?_
  refine .after fun vch => ?_
  exact (relaxes_scriptNumOf h vch).before

theorem relaxes_checkLockTimeVerify (stack : List Valtype) :
    Relaxes (checkLockTimeVerify ctx stack) (checkLockTimeVerify (ctx.withFlags G) stack) := by
  refine h.upgraded ?_ h.lockTime
  refine .after fun _ => ?_
  refine .after fun vch => ?_
  exact (relaxes_ofVch vch h.subset _).before

theorem relaxes_checkSequenceVerify (stack : List Valtype) :
    Relaxes (checkSequenceVerify ctx stack) (checkSequenceVerify (ctx.withFlags G) stack) := by
  refine h.upgraded ?_ h.sequence
  refine .after fun _ => ?_
  refine .after fun vch => ?_
  exact (relaxes_ofVch vch h.subset _).before

section

variable (fVerify : Bool) (pbegincodehash : CScript) (stack : List Valtype)

theorem relaxes_checkSigOp : Relaxes (checkSigOp ctx fVerify pbegincodehash stack)
      (checkSigOp (ctx.withFlags G) fVerify pbegincodehash stack) := by
  refine .after fun _ => ?_
  refine .after fun vchSig => ?_
  refine .after fun vchPubKey => ?_
  refine (relaxes_checkEncodings h vchSig vchPubKey).bind fun _ => ?_
  exact (h.guarded _ _ _ _).before

theorem relaxes_multisigLoop (scriptCode : CScript) (nKeysCount nSigsCount ikey isig : Nat) :
    Relaxes (multisigLoop ctx stack scriptCode nKeysCount nSigsCount ikey isig)
      (multisigLoop (ctx.withFlags G) stack scriptCode nKeysCount nSigsCount ikey isig) := by
  induction nKeysCount generalizing nSigsCount ikey isig with
  | zero =>
    cases nSigsCount with
    | zero => exact .refl _
    | succ nSigsCount => exact .refl _
  | succ nKeysCount ih =>
    cases nSigsCount with
    | zero => exact .refl _
    | succ nSigsCount =>
      refine .after fun vchSig => ?_
      refine .after fun vchPubKey => ?_
      refine (relaxes_checkEncodings h vchSig vchPubKey).bind fun _ => ?_
      refine .ite (fun _ => .refl _) fun _ => ?_
      exact (ih _ _ _).before

theorem relaxes_checkMultisigOp (nOpCount : Nat) :
    Relaxes (checkMultisigOp ctx fVerify pbegincodehash stack nOpCount)
      (checkMultisigOp (ctx.withFlags G) fVerify pbegincodehash stack nOpCount) := by
  refine .after fun _ => ?_
  refine .after fun vch => ?_
  refine (relaxes_scriptNumOf h vch).bind fun bn => ?_
  refine .after fun _ => .after fun _ => .after fun _ => ?_
  refine .after fun vch => ?_
  refine (relaxes_scriptNumOf h vch).bind fun bn => ?_
  refine .after fun _ => .after fun _ => ?_
  refine .after fun scriptCode => ?_
  refine (relaxes_multisigLoop h _ _ _ _ _ _).bind fun r => ?_
  refine .bind (relaxes_multisigCleanUp ?_ _ _ _) fun stack => ?_
  · intro hfail
    rw [Bool.and_eq_true] at hfail ⊢
    exact ⟨hfail.1, h.subset hfail.2⟩
  · refine .after fun _ => .after fun vch => ?_
    exact (h.check _ _ _).before

end

theorem relaxes_ifOp (fNot fExec : Bool) (s : EvalState) :
    Relaxes (ifOp ctx fNot fExec s) (ifOp (ctx.withFlags G) fNot fExec s) := by
  refine .ite (fun _ => ?_) fun _ => .refl _
  refine .after fun _ => .after fun vch => ?_
  exact (h.guarded _ _ _ _).before

/-- **One opcode**: fewer flags let it do what it does under more. -/
theorem relaxes_execute (opcode : Opcode) (fExec : Bool) (s : EvalState) :
    Relaxes (execute ctx opcode fExec s) (execute (ctx.withFlags G) opcode fExec s) := by
  cases opcode with
  | OP_CHECKLOCKTIMEVERIFY => exact (relaxes_checkLockTimeVerify h _).before
  | OP_CHECKSEQUENCEVERIFY => exact (relaxes_checkSequenceVerify h _).before
  | upgradableNop =>
    exact (relaxes_setErrorIf _ _ h.eq_false).before
  | OP_IF => exact relaxes_ifOp h false fExec s
  | OP_NOTIF => exact relaxes_ifOp h true fExec s
  | OP_PICK => exact (relaxes_pickOp h false _).before
  | OP_ROLL => exact (relaxes_pickOp h true _).before
  | unary op => exact (relaxes_unaryOp h op _).before
  | binary op => exact (relaxes_binaryOp h op _).before
  | OP_WITHIN => exact (relaxes_within h _).before
  | OP_CHECKSIG => exact (relaxes_checkSigOp h false _ _).before
  | OP_CHECKSIGVERIFY => exact (relaxes_checkSigOp h true _ _).before
  | OP_CHECKMULTISIG => exact (relaxes_checkMultisigOp h false _ _ _).before
  | OP_CHECKMULTISIGVERIFY => exact (relaxes_checkMultisigOp h true _ _ _).before
  | number _ | OP_NOP | OP_ELSE | OP_ENDIF | OP_VERIFY | OP_RETURN | OP_TOALTSTACK | OP_FROMALTSTACK
  | stack _ | OP_EQUAL | OP_EQUALVERIFY | hash _ | OP_CODESEPARATOR | bad =>
    -- these read no flag
    exact .refl _

/-! ## Runs -/

theorem relaxes_evalStep (s : EvalState) :
    Relaxes (evalStep ctx s) (evalStep (ctx.withFlags G) s) := by
  refine .after fun r => ?_
  refine .after fun _ => .after fun _ => .after fun _ => ?_
  refine .bind ?_ fun _ => .refl _
  refine .ite (fun _ => ?_) fun _ => ?_
  · exact (h.check _ _ _).before
  · exact .ite (fun _ => relaxes_execute h _ _ _) fun _ => .refl _

theorem relaxes_evalLoop (rounds : Nat) (s : EvalState) :
    Relaxes (evalLoop ctx rounds s) (evalLoop (ctx.withFlags G) rounds s) := by
  induction rounds generalizing s with
  | zero =>
    exact .refl _
  | succ rounds ih =>
    refine .ite (fun _ => .refl _) fun _ => ?_
    exact (relaxes_evalStep h s).bind ih

/-- **A run**: fewer flags let a script return the stack it returns under more. -/
theorem relaxes_evalScript (stack : List Valtype) (script : CScript) :
    Relaxes (evalScript ctx stack script) (evalScript (ctx.withFlags G) stack script) := by
  refine .after fun _ => ?_
  exact (relaxes_evalLoop h _ _).before

end

/-! ## Spending an output -/

section

variable {crypto : ScriptCrypto} {checker : BaseSignatureChecker} {F G : ScriptFlags}

/-- A run, for the context that a version of the signature hash gives. -/
theorem Fewer.evalScript (h : Fewer F G) (sigversion : SigVersion) (stack : List Valtype)
    (script : CScript) :
    Relaxes (Chratos.evalScript ⟨crypto, checker, F, sigversion⟩ stack script)
      (Chratos.evalScript ⟨crypto, checker, G, sigversion⟩ stack script) := by
  have hrun : Fewer (EvalContext.mk crypto checker F sigversion).flags G := h
  exact relaxes_evalScript hrun stack script

theorem relaxes_verifyWitnessProgram (h : Fewer F G) (witness : List Valtype) (witversion : Nat)
    (program : Valtype) : Relaxes (verifyWitnessProgram crypto checker F witness witversion program)
      (verifyWitnessProgram crypto checker G witness witversion program) := by
  refine .ite (fun _ => ?_) fun _ => ?_
  · refine .after fun (scriptPubKey, stack) => ?_
    refine .after fun _ => ?_
    exact (h.evalScript _ stack scriptPubKey).before
  · exact relaxes_setErrorIf _ _ h.eq_false

theorem verifyWitness_of_not (hF : hasFlag F SCRIPT_VERIFY_WITNESS = false) (script : CScript)
    (fMalleated : Bool) (e : ScriptError) (witness : List Valtype) (r : List Valtype × Bool) :
    verifyWitness crypto checker F script fMalleated e witness r = .ok r := by
  rw [verifyWitness, hF]
  rfl

theorem relaxes_verifyWitness (h : Fewer F G) (hF : hasFlag F SCRIPT_VERIFY_WITNESS = true)
    (script : CScript) (fMalleated : Bool) (e : ScriptError) (witness : List Valtype)
    (r : List Valtype × Bool) :
    Relaxes (verifyWitness crypto checker F script fMalleated e witness r)
      (verifyWitness crypto checker G script fMalleated e witness r) := by
  rw [verifyWitness, verifyWitness, if_pos hF, if_pos (h.subset hF)]
  cases isWitnessProgram script with
  | none => exact .refl _
  | some program =>
    refine .after fun _ => ?_
    exact (relaxes_verifyWitnessProgram h _ _ _).before

theorem relaxes_verifyScriptHash (h : Fewer F G) (hW : hasFlag F SCRIPT_VERIFY_WITNESS = true)
    (hP : hasFlag F SCRIPT_VERIFY_P2SH = true) (scriptSig scriptPubKey : CScript)
    (witness stackCopy : List Valtype) (r : List Valtype × Bool) :
    Relaxes (verifyScriptHash crypto checker F scriptSig scriptPubKey witness stackCopy r)
      (verifyScriptHash crypto checker G scriptSig scriptPubKey witness stackCopy r) := by
  unfold verifyScriptHash
  rw [hP, h.subset hP]
  refine .ite (fun _ => ?_) fun _ => .refl _
  refine .after fun _ => ?_
  cases stackCopy with
  | nil => exact .refl _
  | cons pubKey2 stack =>
    refine (h.evalScript _ stack pubKey2).bind fun _ => ?_
    exact .after fun _ => relaxes_verifyWitness h hW _ _ _ _ _

/-- Without `WITNESS` the script behind a script hash passes whenever it passes under more flags, and
whatever was found before it. -/
theorem exists_verifyScriptHash (h : Fewer F G) (hW : hasFlag F SCRIPT_VERIFY_WITNESS = false)
    {scriptSig scriptPubKey : CScript} {witness stackCopy : List Valtype} {r r' : List Valtype × Bool}
    (hG : verifyScriptHash crypto checker G scriptSig scriptPubKey witness stackCopy r = .ok r')
    (rF : List Valtype × Bool) :
    ∃ rF', verifyScriptHash crypto checker F scriptSig scriptPubKey witness stackCopy rF = .ok rF' := by
  unfold verifyScriptHash at hG ⊢
  cases hP : hasFlag F SCRIPT_VERIFY_P2SH && isPayToScriptHash scriptPubKey with
  | false => exact ⟨rF, rfl⟩
  | true =>
    -- a script hash is one for both runs
    rw [Bool.and_eq_true] at hP
    rw [h.subset hP.1, hP.2] at hG
    obtain ⟨_, hpush, hG⟩ := bind_eq_ok.mp hG
    cases stackCopy with
    | nil => exact nomatch hG
    | cons pubKey2 stack =>
      obtain ⟨stack', heval, hG⟩ := bind_eq_ok.mp hG
      obtain ⟨_, htrue, -⟩ := bind_eq_ok.mp hG
      refine ⟨(stack', rF.2), ?_⟩
      refine bind_eq_ok.mpr ⟨_, hpush, ?_⟩
      refine bind_eq_ok.mpr ⟨_, h.evalScript _ _ _ _ heval, ?_⟩
      refine bind_eq_ok.mpr ⟨_, htrue, ?_⟩
      exact verifyWitness_of_not hW _ _ _ _ _

/-- What the comments of `VerifyScript` ask of a set of flags. -/
@[mk_iff]
structure FlagsConsistent (flags : ScriptFlags) : Prop where
  witness : hasFlag flags SCRIPT_VERIFY_WITNESS = true → hasFlag flags SCRIPT_VERIFY_P2SH = true
  cleanStack : hasFlag flags SCRIPT_VERIFY_CLEANSTACK = true →
    hasFlag flags SCRIPT_VERIFY_P2SH = true ∧ hasFlag flags SCRIPT_VERIFY_WITNESS = true

instance (flags : ScriptFlags) : Decidable (FlagsConsistent flags) :=
  decidable_of_iff' _ (flagsConsistent_iff flags)

/-- With `WITNESS`, and so with `P2SH`, both runs take the same way. -/
theorem relaxes_verifyScript (h : Fewer F G) (hF : FlagsConsistent F)
    (hW : hasFlag F SCRIPT_VERIFY_WITNESS = true) (scriptSig scriptPubKey : CScript)
    (witness : List Valtype) :
    Relaxes (verifyScript crypto checker F scriptSig scriptPubKey witness)
      (verifyScript crypto checker G scriptSig scriptPubKey witness) := by
  have hP := hF.witness hW
  refine (h.check _ _ _).bind fun _ => ?_
  refine (h.evalScript _ _ _).bind fun stackCopy => ?_
  refine (h.evalScript _ _ _).bind fun stack => ?_
  refine .after fun _ => ?_
  refine (relaxes_verifyWitness h hW _ _ _ _ _).bind fun _ => ?_
  refine (relaxes_verifyScriptHash h hW hP _ _ _ _ _).bind fun _ => ?_
  have hP' := h.subset hP
  have hW' := h.subset hW
  rw [hP, hW, hP', hW']
  refine h.added (fun _ => .refl _) ?_ (.refl _)
  exact .of_bind fun _ => .of_bind fun _ => .of_bind fun _ => .refl _

/-- **Script flags are soft forks.** An output that can be spent under more flags can be spent under
fewer, by the same scripts and witness and for every way to check signatures. -/
theorem scriptFlags_softfork (crypto : ScriptCrypto) (checker : BaseSignatureChecker)
    (F G : ScriptFlags) (hsub : F &&& G = F) (hF : FlagsConsistent F)
    (hnops : hasFlag F SCRIPT_VERIFY_DISCOURAGE_UPGRADABLE_NOPS = true →
      hasFlag F SCRIPT_VERIFY_CHECKLOCKTIMEVERIFY = hasFlag G SCRIPT_VERIFY_CHECKLOCKTIMEVERIFY ∧
      hasFlag F SCRIPT_VERIFY_CHECKSEQUENCEVERIFY = hasFlag G SCRIPT_VERIFY_CHECKSEQUENCEVERIFY)
    (scriptSig scriptPubKey : CScript) (witness : List Valtype)
    (hG : verifyScript crypto checker G scriptSig scriptPubKey witness = .ok ()) :
    verifyScript crypto checker F scriptSig scriptPubKey witness = .ok () := by
  have h : Fewer F G := ⟨hasFlag_of_subset hsub, fun hF => (hnops hF).1, fun hF => (hnops hF).2⟩
  cases hW : hasFlag F SCRIPT_VERIFY_WITNESS with
  | true => exact relaxes_verifyScript h hF hW _ _ _ () hG
  | false =>
    have hclean : ¬ hasFlag F SCRIPT_VERIFY_CLEANSTACK = true := by
      intro hclean
      have hwitness := (hF.cleanStack hclean).2
      rw [hW] at hwitness
      exact nomatch hwitness
    obtain ⟨_, hpush, hG⟩ := bind_eq_ok.mp hG
    obtain ⟨stackCopy, hsig, hG⟩ := bind_eq_ok.mp hG
    obtain ⟨stack, hpub, hG⟩ := bind_eq_ok.mp hG
    obtain ⟨_, htrue, hG⟩ := bind_eq_ok.mp hG
    obtain ⟨_, -, hG⟩ := bind_eq_ok.mp hG
    obtain ⟨_, hhash, -⟩ := bind_eq_ok.mp hG
    obtain ⟨r, hr⟩ := exists_verifyScriptHash h hW hhash (stack, false)
    -- what is left of the stack and of the witness is not looked at
    refine bind_eq_ok.mpr ⟨(), h.check _ _ _ _ hpush, ?_⟩
    refine bind_eq_ok.mpr ⟨stackCopy, h.evalScript _ _ _ _ hsig, ?_⟩
    refine bind_eq_ok.mpr ⟨stack, h.evalScript _ _ _ _ hpub, ?_⟩
    refine bind_eq_ok.mpr ⟨(), htrue, ?_⟩
    refine bind_eq_ok.mpr ⟨(stack, false), verifyWitness_of_not hW _ _ _ _ _, ?_⟩
    refine bind_eq_ok.mpr ⟨r, hr, ?_⟩
    rw [if_neg hclean, hW]
    rfl

/-- A script hash for the script `OP_1`, under four flags and under one. -/
theorem scriptFlags_softfork_p2sh : verifyScript default default
        (SCRIPT_VERIFY_P2SH ||| SCRIPT_VERIFY_WITNESS ||| SCRIPT_VERIFY_CLEANSTACK |||
          SCRIPT_VERIFY_MINIMALDATA)
        [1, OP_1] ([OP_HASH160, 0x14] ++ List.replicate 20 0 ++ [OP_EQUAL]) [] = .ok () ∧
      verifyScript default default SCRIPT_VERIFY_P2SH
        [1, OP_1] ([OP_HASH160, 0x14] ++ List.replicate 20 0 ++ [OP_EQUAL]) [] = .ok () := by
  refine (and_iff_left_of_imp fun hG => ?_).mpr (by decide +kernel)
  exact scriptFlags_softfork default default _ _ (by decide) (by decide) (by decide) _ _ _ hG

end

end Chratos
