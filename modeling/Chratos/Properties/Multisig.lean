import Chratos.Lib.OrderedMatching
import Chratos.Script.Interpreter

/-!
# Chratos — what `OP_CHECKMULTISIG` decides

The loop looks at one key after the other, from the top of the stack down, and gives up when more
signatures than keys are left. It succeeds exactly when the signatures can be given keys in order.
-/

namespace Chratos

open Outcome OrderedMatching List ScriptNum

variable {stack sigs keys : List Valtype} {n : Nat}

/-! ## Values on the stack -/

/-- The values lie on the stack, the first one at `stacktop(-i)`. -/
def Holds (stack : List Valtype) (i : Nat) (vs : List Valtype) : Prop :=
  ∀ j vch, vs[j]? = some vch → stacktop stack (i + j) = .ok vch

theorem stacktop_append (pre post : List Valtype) (vch : Valtype) :
    stacktop (pre ++ vch :: post) (pre.length + 1) = .ok vch := by
  simp [stacktop]

theorem Holds.of_append (pre vs post : List Valtype) :
    Holds (pre ++ (vs ++ post)) (pre.length + 1) vs := by
  intro j vch hj
  have hlt : j < vs.length := (List.getElem?_eq_some_iff.mp hj).1
  have hget : (pre ++ (vs ++ post))[pre.length + j]? = some vch := by
    rw [getElem?_append_right (Nat.le_add_right _ _), Nat.add_sub_cancel_left,
      getElem?_append_left hlt, hj]
  rw [add_right_comm, stacktop, hget]

section

variable {i : Nat} {v : Valtype} {vs : List Valtype}

theorem Holds.head (h : Holds stack i (v :: vs)) : stacktop stack i = .ok v := h 0 v rfl

theorem Holds.tail (h : Holds stack i (v :: vs)) : Holds stack (i + 1) vs := by
  intro j vch hj
  rw [add_right_comm, add_assoc]
  exact h (j + 1) vch hj

theorem Holds.last (h : Holds stack i (vs ++ [v])) : stacktop stack (i + vs.length) = .ok v :=
  h vs.length v getElem?_concat_length

theorem Holds.init (h : Holds stack i (vs ++ [v])) : Holds stack i vs := by
  intro j vch hj
  apply h j vch
  rw [getElem?_append_left (List.getElem?_eq_some_iff.mp hj).1, hj]

end

section

variable (ctx : EvalContext)

/-! ## The loops

The other two loops of the opcode (`multisigCleanUp_eq`, `foldlM_dropSignature`).
-/

/-- The signature verifies with the key. -/
def Verifies (scriptCode : CScript) (vchSig vchPubKey : Valtype) : Prop :=
  ctx.checker.checkSig vchSig vchPubKey scriptCode ctx.sigversion = true

instance (scriptCode : CScript) (vchSig vchPubKey : Valtype) :
    Decidable (Verifies ctx scriptCode vchSig vchPubKey) :=
  inferInstanceAs (Decidable (_ = true))

variable {isig : Nat}

/-- The script without the signatures, which lie on the stack in this order. -/
theorem foldlM_dropSignature (code : CScript) (h : Holds stack isig sigs) :
    (List.range sigs.length).foldlM (fun scriptCode k => do
      let vchSig ← stacktop stack (isig + k)
      .ok (dropSignature ctx scriptCode vchSig)) code = .ok (sigs.foldl (dropSignature ctx) code) := by
  induction sigs using List.reverseRecOn with
  | nil => rfl
  | append_singleton sigs sig ih =>
    rw [length_append, length_singleton, range_succ, foldlM_append, ih h.init, foldl_append]
    show (stacktop stack (isig + sigs.length) >>= _) >>= _ = _
    rw [h.last]
    rfl

/-- **The loop is a greedy search** for keys in order, with one call for each key at most. -/
theorem multisigLoop_spec (scriptCode : CScript) {ikey : Nat}
    (hkeys : Holds stack ikey keys) (hsigs : Holds stack isig sigs)
    (hle : sigs.length ≤ keys.length)
    (henc : ∀ sig ∈ sigs, ∀ key ∈ keys, checkEncodings ctx sig key = .ok ()) : ∃ fSuccess calls,
      multisigLoop ctx stack scriptCode keys.length sigs.length ikey isig = .ok (fSuccess, calls) ∧
      (fSuccess = true ↔ List.SublistForall₂ (Verifies ctx scriptCode) sigs keys) ∧
      calls.length ≤ keys.length := by
  induction keys generalizing sigs ikey isig with
  | nil =>
    have hnil : sigs = [] := length_eq_zero_iff.mp (Nat.le_zero.mp hle)
    subst hnil
    exact ⟨true, [], rfl, iff_of_true rfl .nil, le_refl 0⟩
  | cons key keys ih =>
    cases sigs with
    | nil => exact ⟨true, [], rfl, iff_of_true rfl .nil, Nat.zero_le _⟩
    | cons sig sigs =>
      have hpair := henc sig mem_cons_self key mem_cons_self
      have hround : multisigLoop ctx stack scriptCode (keys.length + 1) (sigs.length + 1) ikey isig =
          (let fOk := ctx.checker.checkSig sig key scriptCode ctx.sigversion
           let nSigsCount := if fOk then sigs.length else sigs.length + 1
           if keys.length < nSigsCount then .ok (false, [(sig, key)])
           else multisigLoop ctx stack scriptCode keys.length nSigsCount (ikey + 1)
             (if fOk then isig + 1 else isig) >>= fun r => .ok (r.1, (sig, key) :: r.2)) := by
        rw [multisigLoop, hsigs.head, hkeys.head]
        show (checkEncodings ctx sig key >>= _) = _
        rw [hpair]
        rfl
      rw [length_cons, length_cons, hround]
      cases hOk : ctx.checker.checkSig sig key scriptCode ctx.sigversion with
      | true =>
        -- the key is taken
        obtain ⟨fSuccess, calls, hloop, hiff, hcalls⟩ :=
          ih hkeys.tail hsigs.tail (Nat.le_of_succ_le_succ hle)
          fun s hs k hk => henc s (mem_cons_of_mem _ hs) k (mem_cons_of_mem _ hk)
        refine ⟨fSuccess, (sig, key) :: calls, ?_, ?_, Nat.succ_le_succ hcalls⟩
        · simp only [if_true, if_neg (not_lt.mpr (Nat.le_of_succ_le_succ hle)), hloop]
          rfl
        · have hverifies : Verifies ctx scriptCode sig key := hOk
          rw [hiff, cons_cons_iff_of_rel hverifies]
      | false =>
        have hnot : ¬ Verifies ctx scriptCode sig key := by
          rw [Verifies, hOk]
          exact Bool.false_ne_true
        rw [cons_cons_iff_of_not_rel hnot]
        by_cases hfew : keys.length < sigs.length + 1
        · -- more signatures than keys are left
          refine ⟨false, [(sig, key)], ?_, ?_, Nat.succ_le_succ (Nat.zero_le _)⟩
          · simp only [Bool.false_eq_true, if_false, if_pos hfew]
          · refine iff_of_false Bool.false_ne_true fun hmatch => ?_
            exact absurd (length_le hmatch) (not_le.mpr hfew)
        · obtain ⟨fSuccess, calls, hloop, hiff, hcalls⟩ := ih hkeys.tail hsigs (not_lt.mp hfew)
            fun s hs k hk => henc s hs k (mem_cons_of_mem _ hk)
          refine ⟨fSuccess, (sig, key) :: calls, ?_, hiff, Nat.succ_le_succ hcalls⟩
          rw [length_cons] at hloop
          simp only [Bool.false_eq_true, if_false, if_neg hfew, hloop]
          rfl

end

theorem multisigCleanUp_eq (fNullFail : Bool) (pre post : List Valtype) (ikey2 : Nat) :
    multisigCleanUp fNullFail pre.length ikey2 (pre ++ post) =
      if fNullFail && (pre.drop ikey2).any (· ≠ []) then .error (.error .SCRIPT_ERR_SIG_NULLFAIL)
      else .ok post := by
  induction pre generalizing ikey2 with
  | nil => simp [multisigCleanUp]
  | cons vch pre ih =>
    show (setErrorIf (fNullFail && ikey2 = 0 && vch ≠ []) _ >>= fun _ =>
      multisigCleanUp fNullFail pre.length (ikey2 - 1) (pre ++ post)) = _
    rw [ih]
    cases fNullFail with
    | false => rfl
    | true =>
      cases ikey2 with
      | succ ikey2 => rfl
      | zero =>
        -- the keys and both counts are gone: the signatures
        cases vch with
        | nil => rfl
        | cons b vch => rfl

/-! ## The opcode -/

theorem ScriptNum.getint_natCast (h : n ≤ MAX_PUBKEYS_PER_MULTISIG) : ScriptNum.getint n = n := by
  rw [MAX_PUBKEYS_PER_MULTISIG] at h
  rw [getint, if_neg (by omega), if_neg (by omega)]

theorem requireSize_of_le (h : n ≤ stack.length) : requireSize stack n = .ok () := by
  exact failIf_eq_ok.mpr (decide_eq_false (not_lt.mpr h))

theorem setErrorIf_of_not {p : Prop} [Decidable p] {e : ScriptError} (h : ¬ p) :
    setErrorIf p e = .ok () :=
  failIf_eq_ok.mpr (decide_eq_false h)

section

variable (ctx : EvalContext)

/-- The opcode up to the loop: the counts are read and the loop is entered. -/
theorem checkMultisigOp_eq (fVerify : Bool) (code : CScript) {rest : List Valtype}
    {vchKeys vchSigs dummy : Valtype} {nOpCount : Nat}
    (hkeys : scriptNumOf ctx vchKeys = .ok (keys.length : Int))
    (hsigs : scriptNumOf ctx vchSigs = .ok (sigs.length : Int))
    (hle : sigs.length ≤ keys.length) (hmax : keys.length ≤ MAX_PUBKEYS_PER_MULTISIG)
    (hops : nOpCount + keys.length ≤ MAX_OPS_PER_SCRIPT) :
    checkMultisigOp ctx fVerify code ((vchKeys :: keys ++ vchSigs :: sigs) ++ dummy :: rest) nOpCount =
      (do
        let r ← multisigLoop ctx ((vchKeys :: keys ++ vchSigs :: sigs) ++ dummy :: rest)
          (sigs.foldl (dropSignature ctx) code) keys.length sigs.length 2 (keys.length + 3)
        setErrorIf ((!r.1 && hasFlag ctx.flags SCRIPT_VERIFY_NULLFAIL) && sigs.any (· ≠ []))
          .SCRIPT_ERR_SIG_NULLFAIL
        setErrorIf (hasFlag ctx.flags SCRIPT_VERIFY_NULLDUMMY && dummy ≠ []) .SCRIPT_ERR_SIG_NULLDUMMY
        let stack ← verifyTop fVerify r.1 .SCRIPT_ERR_CHECKMULTISIGVERIFY (vchBool r.1 :: rest)
        .ok (stack, nOpCount + keys.length)) := by
  set pre := vchKeys :: keys ++ vchSigs :: sigs with hpre
  have hlen : pre.length = keys.length + sigs.length + 2 := by
    rw [hpre, length_append, length_cons, length_cons]
    omega
  have hsize : keys.length + sigs.length + 3 ≤ (pre ++ dummy :: rest).length := by
    rw [length_append, length_cons, hlen]
    omega
  have hcountKeys : stacktop (pre ++ dummy :: rest) 1 = .ok vchKeys := rfl
  have hcountSigs : stacktop (pre ++ dummy :: rest) (2 + keys.length) = .ok vchSigs := by
    have h := stacktop_append (vchKeys :: keys) (sigs ++ dummy :: rest) vchSigs
    rw [length_cons, add_assoc, add_comm] at h
    rw [hpre, append_assoc, cons_append]
    exact h
  have hheld : Holds (pre ++ dummy :: rest) (2 + keys.length + 1) sigs := by
    have h := Holds.of_append (vchKeys :: keys ++ [vchSigs]) sigs (dummy :: rest)
    simpa [hpre, add_comm, add_left_comm] using h
  have hinit : pre.drop (keys.length + 2) = sigs := by
    have h : pre = (vchKeys :: keys ++ [vchSigs]) ++ sigs := by simp [hpre]
    rw [h, drop_left' (by simp)]
  have hkeysInt := getint_natCast hmax
  have hsigsInt := getint_natCast (le_trans hle hmax)
  unfold checkMultisigOp
  -- the number of keys
  rw [requireSize_of_le (by omega), ok_bind, hcountKeys, ok_bind, hkeys, ok_bind, hkeysInt,
    Int.toNat_natCast,
    setErrorIf_of_not (by omega), ok_bind]
  dsimp only
  -- the operations, and the number of signatures
  rw [setErrorIf_of_not (by omega), ok_bind, requireSize_of_le (by omega), ok_bind, hcountSigs, ok_bind,
    hsigs, ok_bind, hsigsInt, Int.toNat_natCast, setErrorIf_of_not (by omega), ok_bind,
    requireSize_of_le (by omega), ok_bind, foldlM_dropSignature ctx code hheld, ok_bind, add_comm 2]
  -- the arguments go, with the signatures looked at if the loop failed, and then the dummy
  have hcount : keys.length + 2 + 1 + sigs.length - 1 = pre.length := by omega
  rw [hcount]
  congr 1
  funext r
  rw [multisigCleanUp_eq, hinit]
  cases hnull : (!r.1 && hasFlag ctx.flags SCRIPT_VERIFY_NULLFAIL) && sigs.any (· ≠ []) with
  | true => rfl
  | false => rfl

/-- **`OP_CHECKMULTISIG` decides whether the signatures can be given keys in order.** Keys and
signatures are listed in the order in which they were pushed. The loop ends, with `fSuccess` exactly
if there is an increasing map from signatures to keys that they verify with, after one call of
`CheckSig` for each key at most. An opcode that comes to the loop pushes true exactly in that case;
otherwise it pushes false, unless `NULLFAIL` forbids a signature that is not empty. -/
theorem checkMultisig_decides_matching (code : CScript) (keys sigs rest : List Valtype)
    (vchKeys vchSigs dummy : Valtype) (hle : sigs.length ≤ keys.length)
    (hsigEnc : ∀ vchSig ∈ sigs, checkSignatureEncoding ctx.crypto vchSig ctx.flags = .ok ())
    (hkeyEnc : ∀ vchPubKey ∈ keys, checkPubKeyEncoding vchPubKey ctx.flags ctx.sigversion = .ok ()) :
    let stack := (vchKeys :: keys.reverse ++ vchSigs :: sigs.reverse) ++ dummy :: rest
    let scriptCode := sigs.reverse.foldl (dropSignature ctx) code
    let Matched := OrderedMatch (Verifies ctx scriptCode) sigs keys
    (∃ fSuccess calls,
      multisigLoop ctx stack scriptCode keys.length sigs.length 2 (keys.length + 3) =
        .ok (fSuccess, calls) ∧
      (fSuccess = true ↔ Matched) ∧ calls.length ≤ keys.length) ∧
    ∀ nOpCount, scriptNumOf ctx vchKeys = .ok (keys.length : Int) →
      scriptNumOf ctx vchSigs = .ok (sigs.length : Int) → keys.length ≤ MAX_PUBKEYS_PER_MULTISIG →
      nOpCount + keys.length ≤ MAX_OPS_PER_SCRIPT →
      (hasFlag ctx.flags SCRIPT_VERIFY_NULLDUMMY = true → dummy = []) →
      (checkMultisigOp ctx false code stack nOpCount =
        .ok (vchTrue :: rest, nOpCount + keys.length) ↔ Matched) ∧
      (¬ Matched → checkMultisigOp ctx false code stack nOpCount =
        if hasFlag ctx.flags SCRIPT_VERIFY_NULLFAIL && sigs.any (· ≠ []) then
          .error (.error .SCRIPT_ERR_SIG_NULLFAIL)
        else .ok (vchFalse :: rest, nOpCount + keys.length)) := by
  intro stack scriptCode Matched
  have hstackKeys : Holds stack 2 keys.reverse := by
    have h := Holds.of_append [vchKeys] keys.reverse (vchSigs :: sigs.reverse ++ dummy :: rest)
    simpa [stack] using h
  have hstackSigs : Holds stack (keys.length + 3) sigs.reverse := by
    have h := Holds.of_append (vchKeys :: keys.reverse ++ [vchSigs]) sigs.reverse (dummy :: rest)
    simpa [stack] using h
  have henc : ∀ sig ∈ sigs.reverse, ∀ key ∈ keys.reverse, checkEncodings ctx sig key = .ok () := by
    intro sig hsig key hkey
    exact bind_eq_ok.mpr ⟨(), hsigEnc sig (mem_reverse.mp hsig), hkeyEnc key (mem_reverse.mp hkey)⟩
  have hle' : sigs.reverse.length ≤ keys.reverse.length := by
    rwa [length_reverse, length_reverse]
  obtain ⟨fSuccess, calls, hloop, hiff, hcalls⟩ :=
    multisigLoop_spec ctx scriptCode hstackKeys hstackSigs hle' henc
  -- the stack has both lists backwards, which is the same question
  rw [OrderedMatch.sublistForall₂_iff, OrderedMatch.reverse_iff] at hiff
  rw [length_reverse, length_reverse] at hloop
  rw [length_reverse] at hcalls
  refine ⟨⟨fSuccess, calls, hloop, hiff, hcalls⟩, ?_⟩
  intro nOpCount hkeys hsigs hmax hops hdummy
  have hdummyOk : setErrorIf (hasFlag ctx.flags SCRIPT_VERIFY_NULLDUMMY && dummy ≠ [])
      .SCRIPT_ERR_SIG_NULLDUMMY = .ok () := by
    apply failIf_eq_ok.mpr
    cases hflag : hasFlag ctx.flags SCRIPT_VERIFY_NULLDUMMY with
    | false => rfl
    | true => simp [hdummy hflag]
  have hop : checkMultisigOp ctx false code stack nOpCount = (do
      setErrorIf ((!fSuccess && hasFlag ctx.flags SCRIPT_VERIFY_NULLFAIL) && sigs.any (· ≠ []))
        .SCRIPT_ERR_SIG_NULLFAIL
      .ok (vchBool fSuccess :: rest, nOpCount + keys.length)) := by
    rw [← length_reverse] at hkeys hsigs
    refine (checkMultisigOp_eq ctx false code hkeys hsigs hle' ?_ ?_).trans ?_
    · rwa [length_reverse]
    · rwa [length_reverse]
    · rw [length_reverse, length_reverse, hloop, ok_bind, any_reverse, hdummyOk]
      rfl
  rw [hop]
  cases fSuccess with
  | true =>
    have hmatched : Matched := hiff.mp rfl
    exact ⟨iff_of_true rfl hmatched, fun hnot => absurd hmatched hnot⟩
  | false =>
    have hnot : ¬ Matched := fun hmatched => Bool.false_ne_true (hiff.mpr hmatched)
    rw [Bool.not_false, Bool.true_and]
    cases hasFlag ctx.flags SCRIPT_VERIFY_NULLFAIL && sigs.any (· ≠ []) with
    | true => exact ⟨iff_of_false nofun hnot, fun _ => rfl⟩
    | false => exact ⟨iff_of_false nofun hnot, fun _ => rfl⟩

/-- Signatures and keys of one byte: a signature verifies with the key of the same byte. -/
def byteContext : EvalContext :=
  { crypto := default
    checker := ⟨fun vchSig vchPubKey _ _ => vchSig = vchPubKey, fun _ => false, fun _ => false⟩
    flags := 0
    sigversion := .SIGVERSION_BASE }

/-- Two signatures for three keys. -/
theorem checkMultisig_decides_matching_three :
    checkMultisigOp byteContext false [] ([3] :: [[9], [8], [7]] ++ [2] :: [[9], [7]] ++ [[]]) 0 =
      .ok ([vchTrue], 3) := by
  have h := checkMultisig_decides_matching byteContext [] [[7], [8], [9]] [[7], [9]] [] [3] [2] []
    (by decide) (by decide +kernel) (by decide +kernel)
  apply ((h.2 0 (by decide +kernel) (by decide +kernel) (by decide) (by decide) (by decide)).1).mpr
  exact ⟨fun i => if i = 0 then 0 else 2, by decide, by decide⟩

end

end Chratos
