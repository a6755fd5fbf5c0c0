import Mathlib.Data.Nat.Bitwise
import Chratos.Lib.Codec
import Chratos.Lib.Program

/-!
# Chratos — script errors and script numbers (`script/script_error.h`, `script/script.h`)

`CScriptNum` reads an element of the stack as a number of at most four bytes, five for lock times, and
computes with 64 bits, so that results may exceed what can be read again. Its operators assert that
nothing overflows.
-/

namespace Chratos

open Codec Outcome List

/-! ## Failures -/

inductive ScriptError where
  | SCRIPT_ERR_UNKNOWN_ERROR
  | SCRIPT_ERR_EVAL_FALSE
  | SCRIPT_ERR_OP_RETURN
  | SCRIPT_ERR_SCRIPT_SIZE
  | SCRIPT_ERR_PUSH_SIZE
  | SCRIPT_ERR_OP_COUNT
  | SCRIPT_ERR_STACK_SIZE
  | SCRIPT_ERR_SIG_COUNT
  | SCRIPT_ERR_PUBKEY_COUNT
  | SCRIPT_ERR_VERIFY
  | SCRIPT_ERR_EQUALVERIFY
  | SCRIPT_ERR_CHECKMULTISIGVERIFY
  | SCRIPT_ERR_CHECKSIGVERIFY
  | SCRIPT_ERR_NUMEQUALVERIFY
  | SCRIPT_ERR_BAD_OPCODE
  | SCRIPT_ERR_DISABLED_OPCODE
  | SCRIPT_ERR_INVALID_STACK_OPERATION
  | SCRIPT_ERR_INVALID_ALTSTACK_OPERATION
  | SCRIPT_ERR_UNBALANCED_CONDITIONAL
  | SCRIPT_ERR_NEGATIVE_LOCKTIME
  | SCRIPT_ERR_UNSATISFIED_LOCKTIME
  | SCRIPT_ERR_SIG_HASHTYPE
  | SCRIPT_ERR_SIG_DER
  | SCRIPT_ERR_MINIMALDATA
  | SCRIPT_ERR_SIG_PUSHONLY
  | SCRIPT_ERR_SIG_HIGH_S
  | SCRIPT_ERR_SIG_NULLDUMMY
  | SCRIPT_ERR_PUBKEYTYPE
  | SCRIPT_ERR_CLEANSTACK
  | SCRIPT_ERR_MINIMALIF
  | SCRIPT_ERR_SIG_NULLFAIL
  | SCRIPT_ERR_DISCOURAGE_UPGRADABLE_NOPS
  | SCRIPT_ERR_DISCOURAGE_UPGRADABLE_WITNESS_PROGRAM
  | SCRIPT_ERR_WITNESS_PROGRAM_WRONG_LENGTH
  | SCRIPT_ERR_WITNESS_PROGRAM_WITNESS_EMPTY
  | SCRIPT_ERR_WITNESS_PROGRAM_MISMATCH
  | SCRIPT_ERR_WITNESS_MALLEATED
  | SCRIPT_ERR_WITNESS_MALLEATED_P2SH
  | SCRIPT_ERR_WITNESS_UNEXPECTED
  | SCRIPT_ERR_WITNESS_PUBKEYTYPE
  deriving DecidableEq, Repr

/-- Why an evaluation does not succeed: it returns an error; a `scriptnum_error` or an access outside of
a vector is thrown, which is caught and reported as `SCRIPT_ERR_UNKNOWN_ERROR`; an assertion fails and
the process ends; or a loop would take more rounds than there are bytes or keys. -/
inductive EvalFailure where
  | error (serror : ScriptError)
  | scriptnumError
  | outOfRange
  | assertion
  | unfinished
  deriving DecidableEq, Repr

abbrev Eval := Except EvalFailure

/-- `if (c) return set_error(serror, e);` -/
def setErrorIf (c : Bool) (e : ScriptError) : Eval Unit := failIf c (.error e)

/-- A failure that is an error or a number that cannot be read. -/
def EvalFailure.Orderly : EvalFailure → Prop
  | .error _ => True
  | .scriptnumError => True
  | .outOfRange => False
  | .assertion => False
  | .unfinished => False

theorem ends_setErrorIf (c : Bool) (e : ScriptError) :
    Ends (fun _ => c = false) EvalFailure.Orderly (setErrorIf c e) :=
  Ends.failIf trivial

theorem relaxes_setErrorIf {c d : Bool} (e e' : ScriptError) (h : d = false → c = false) :
    Relaxes (setErrorIf c e) (setErrorIf d e') :=
  .failIf h

/-! ## Script numbers -/

namespace ScriptNum

def nDefaultMaxNumSize : Nat := 4

section

variable (vch : List UInt8)

/-- `set_vch`: the highest bit of the last byte is the sign. -/
def setVch : Int :=
  match vch.getLast? with
  | none => 0
  | some back =>
    if back &&& 0x80 ≠ 0 then -((leNat vch - 0x80 * 256 ^ (vch.length - 1) : Nat) : Int)
    else leNat vch

/-- The check of the constructor under `fRequireMinimal`. -/
def isMinimal : Bool :=
  match vch.reverse with
  | [] => true
  | back :: rest =>
    if back &&& 0x7f = 0 then
      match rest with
      | [] => false
      | next :: _ => next &&& 0x80 ≠ 0
    else true

/-- The constructor from an element of the stack. -/
def ofVch (fRequireMinimal : Bool) (nMaxNumSize : Nat) : Eval Int :=
  if nMaxNumSize < vch.length then .error .scriptnumError
  else if fRequireMinimal && !isMinimal vch then .error .scriptnumError
  else .ok (setVch vch)

def getint (n : Int) : Int := if 2 ^ 31 - 1 < n then 2 ^ 31 - 1 else if n < -2 ^ 31 then -2 ^ 31 else n

/-- The bytes of an absolute value, of which a `uint64_t` has eight. -/
def absBytes : Nat → Nat → List UInt8
  | 0, _ => []
  | bytes + 1, absvalue =>
    if absvalue = 0 then [] else UInt8.ofNat absvalue :: absBytes bytes (absvalue / 256)

/-- `serialize`. -/
def serialize (value : Int) : List UInt8 :=
  let result := absBytes 8 value.natAbs
  match result.getLast? with
  | none => []
  | some back =>
    if back &&& 0x80 ≠ 0 then result ++ [if value < 0 then 0x80 else 0]
    else if value < 0 then result.dropLast ++ [back ||| 0x80]
    else result

/-- `operator-()` with its assertion. -/
def neg (n : Int) : Eval Int := if n = -2 ^ 63 then .error .assertion else .ok (-n)

/-- `operator+=` with its assertion. -/
def addAssign (n rhs : Int) : Eval Int :=
  if rhs = 0 ∨ 0 < rhs ∧ n ≤ 2 ^ 63 - 1 - rhs ∨ rhs < 0 ∧ -2 ^ 63 - rhs ≤ n then .ok (n + rhs)
  else .error .assertion

/-- `operator-=` with its assertion. -/
def subAssign (n rhs : Int) : Eval Int :=
  if rhs = 0 ∨ 0 < rhs ∧ -2 ^ 63 + rhs ≤ n ∨ rhs < 0 ∧ n ≤ 2 ^ 63 - 1 + rhs then .ok (n - rhs)
  else .error .assertion

/-! ## Bounds

Nine bytes hold every number (`ScriptNum.length_serialize`).
-/

theorem signBit_iff (b : UInt8) : b &&& 0x80 ≠ 0 ↔ 128 ≤ b.toNat := by
  have hlt := b.toNat_lt
  have hand : (b &&& 0x80).toNat = b.toNat / 2 ^ 7 % 2 * 2 ^ 7 := by
    show b.toNat &&& 2 ^ 7 = _
    rw [Nat.and_two_pow, Nat.toNat_testBit]
  have hzero : b &&& 0x80 = 0 ↔ (b &&& 0x80).toNat = 0 := by
    rw [← UInt8.toNat_inj]
    rfl
  rw [Ne, hzero, hand]
  omega

theorem lowBits_iff (b : UInt8) : b &&& 0x7f = 0 ↔ b.toNat % 128 = 0 := by
  rw [← UInt8.toNat_inj, UInt8.toNat_and]
  exact Eq.congr_left (Nat.and_two_pow_sub_one_eq_mod b.toNat 7)

section

variable (init : List UInt8) (back : UInt8)

/-- The number without its sign, from the last byte and those before. -/
def magnitude : Nat :=
  leNat init + back.toNat % 128 * 256 ^ init.length

theorem magnitude_lt : magnitude init back < 128 * 256 ^ init.length := by
  have hlow := leNat_lt init
  have hback : back.toNat % 128 * 256 ^ init.length ≤ 127 * 256 ^ init.length :=
    Nat.mul_le_mul_right _ (by omega)
  unfold magnitude
  omega

theorem leNat_eq_magnitude : leNat (init ++ [back]) =
    magnitude init back + back.toNat / 128 * 128 * 256 ^ init.length := by
  rw [leNat_concat, magnitude, add_assoc, ← add_mul, mul_comm _ 128, Nat.mod_add_div]

theorem setVch_concat : setVch (init ++ [back]) =
    if 128 ≤ back.toNat then -(magnitude init back : Int) else magnitude init back := by
  have hback := back.toNat_lt
  rw [setVch, getLast?_concat]
  simp only [signBit_iff, leNat_eq_magnitude, length_append, length_singleton, Nat.add_sub_cancel]
  split
  · rw [show back.toNat / 128 = 1 by omega, Nat.one_mul, Nat.add_sub_cancel]
  · rw [show back.toNat / 128 = 0 by omega, Nat.zero_mul, Nat.add_zero]

end

/-- What is read fits into one bit less than the bytes have. -/
theorem setVch_bounds {k : Nat} (hk : vch.length ≤ k) :
    (setVch vch).natAbs < 128 * 256 ^ (k - 1) := by
  rcases eq_nil_or_concat' vch with rfl | ⟨init, back, rfl⟩
  · exact Nat.mul_pos (by decide) (Nat.pow_pos (by decide))
  · rw [length_append, length_singleton] at hk
    have hpow : 256 ^ init.length ≤ 256 ^ (k - 1) := Nat.pow_le_pow_right (by decide) (by omega)
    have hlt := magnitude_lt init back
    rw [setVch_concat]
    split <;> omega

theorem length_absBytes (bytes n : Nat) : (absBytes bytes n).length ≤ bytes := by
  induction bytes generalizing n with
  | zero => exact le_refl 0
  | succ bytes ih =>
    rw [absBytes]
    split
    · exact Nat.zero_le _
    · exact Nat.succ_le_succ (ih _)

theorem length_serialize (value : Int) : (serialize value).length ≤ 9 := by
  have hlength := length_absBytes 8 value.natAbs
  rw [serialize]
  split
  · exact Nat.zero_le _
  · split
    · rw [length_append, length_singleton]
      omega
    · split
      · rw [length_append, length_dropLast, length_singleton]
        omega
      · omega

/-! ## Canonical form -/

/-- A vector is minimal when its number would not fit into a byte less. -/
theorem isMinimal_concat (init : List UInt8) (back : UInt8) :
    isMinimal (init ++ [back]) = true ↔ 256 ^ init.length ≤ 2 * magnitude init back := by
  rw [isMinimal, reverse_concat, magnitude]
  simp only [lowBits_iff]
  split
  · -- the last byte has nothing but the sign
    rename_i hlow
    rw [hlow, zero_mul, add_zero]
    rcases eq_nil_or_concat' init with rfl | ⟨rest, next, rfl⟩
    · simp [leNat]
    · have hrest := leNat_lt rest
      simp only [reverse_concat, decide_eq_true_eq, signBit_iff, leNat_concat, length_append,
        length_singleton, pow_succ]
      constructor
      · intro hnext
        have := Nat.mul_le_mul_right (256 ^ rest.length) hnext
        omega
      · intro hle
        by_contra hnext
        have := Nat.mul_le_mul_right (256 ^ rest.length) (show next.toNat ≤ 127 by omega)
        omega
  · rename_i hlow
    have := Nat.mul_le_mul_right (256 ^ init.length) (Nat.pos_of_ne_zero hlow)
    simp only [true_iff]
    omega

theorem minimal_of_magnitude {n : Int} {init : List UInt8} {back : UInt8}
    (hsign : 128 ≤ back.toNat ↔ n < 0) (habs : magnitude init back = n.natAbs)
    (hmin : 256 ^ init.length ≤ 2 * n.natAbs) :
    isMinimal (init ++ [back]) = true ∧ setVch (init ++ [back]) = n := by
  rw [isMinimal_concat, setVch_concat, habs]
  refine ⟨hmin, ?_⟩
  split <;> omega

/-- The length of a minimal vector is known from its number, and so are its bytes. -/
theorem setVch_inj {v w : List UInt8} (hv : isMinimal v = true) (hw : isMinimal w = true)
    (h : setVch v = setVch w) : v = w := by
  have hzero : ∀ init back, isMinimal (init ++ [back]) = true → setVch (init ++ [back]) ≠ 0 := by
    intro init back hmin
    have hpos := Nat.pow_pos (n := init.length) (show 0 < 256 by decide)
    rw [isMinimal_concat] at hmin
    rw [setVch_concat]
    split <;> omega
  rcases eq_nil_or_concat' v with rfl | ⟨init, back, rfl⟩
  · rcases eq_nil_or_concat' w with rfl | ⟨init', back', rfl⟩
    · rfl
    · exact absurd h.symm (hzero init' back' hw)
  · rcases eq_nil_or_concat' w with rfl | ⟨init', back', rfl⟩
    · exact absurd h (hzero init back hv)
    · have hne := hzero init back hv
      have hback := back.toNat_lt
      have hback' := back'.toNat_lt
      have hlt := magnitude_lt init back
      have hlt' := magnitude_lt init' back'
      rw [isMinimal_concat] at hv hw
      rw [setVch_concat] at h hne
      rw [setVch_concat] at h
      have hsame :
        magnitude init back = magnitude init' back' ∧ back.toNat / 128 = back'.toNat / 128 := by
        split at h <;> split at h <;> omega
      have hle : init.length < init'.length + 1 :=
        (Nat.pow_lt_pow_iff_right (show 1 < 256 by decide)).mp (by rw [pow_succ]; omega)
      have hge : init'.length < init.length + 1 :=
        (Nat.pow_lt_pow_iff_right (show 1 < 256 by decide)).mp (by rw [pow_succ]; omega)
      have hlen : init.length = init'.length := by omega
      rw [← leBytes_leNat (init ++ [back]), ← leBytes_leNat (init' ++ [back']), leNat_eq_magnitude,
        leNat_eq_magnitude, length_append, length_append, hsame.1, hsame.2, hlen]
      rfl

theorem absBytes_eq {k n : Nat} (hpos : 0 < n) (h : n < 256 ^ k) :
    ∃ init back, absBytes k n = init ++ [back] ∧ 0 < back.toNat ∧ leNat (absBytes k n) = n := by
  induction k generalizing n with
  | zero => omega
  | succ k ih =>
    have hlow : (UInt8.ofNat n).toNat = n % 256 := UInt8.toNat_ofNat'
    rw [absBytes, if_neg hpos.ne', leNat, hlow]
    rcases Nat.eq_zero_or_pos (n / 256) with hquot | hquot
    · have hnil : absBytes k (n / 256) = [] := by
        rw [hquot]
        cases k <;> rfl
      rw [hnil]
      exact ⟨[], _, rfl, by omega, show n % 256 + 256 * 0 = n by omega⟩
    · obtain ⟨init, back, heq, hback, hval⟩ := ih hquot (by omega)
      exact ⟨_ :: init, back, by rw [heq]; rfl, hback, by rw [hval]; omega⟩

theorem serialize_spec {n : Int} (hn : n.natAbs < 2 ^ 64) :
    isMinimal (serialize n) = true ∧ setVch (serialize n) = n := by
  rcases Nat.eq_zero_or_pos n.natAbs with hzero | hpos
  · obtain rfl := Int.natAbs_eq_zero.mp hzero
    exact ⟨rfl, rfl⟩
  · obtain ⟨init, back, heq, hback, hval⟩ := absBytes_eq (k := 8) hpos (by omega)
    rw [heq] at hval
    have hsum := hval
    rw [leNat_concat] at hsum
    rw [serialize, heq, getLast?_concat]
    simp only [signBit_iff, dropLast_concat]
    split
    · -- the sign has a byte of its own
      rename_i hhigh
      have := Nat.mul_le_mul_right (256 ^ init.length) hhigh
      apply minimal_of_magnitude
      · split <;> simp [*]
      · rw [magnitude, hval]
        split <;> simp
      · rw [length_append, length_singleton, pow_succ]
        omega
    · rename_i hhigh
      have := Nat.mul_le_mul_right (256 ^ init.length) hback
      split
      · have hor : (back ||| 0x80).toNat = back.toNat + 128 := by
          rw [UInt8.toNat_or, Nat.or_comm, add_comm]
          exact (Nat.two_pow_add_eq_or_of_lt (i := 7) (Nat.lt_of_not_le hhigh) 1).symm
        refine minimal_of_magnitude (by omega) ?_ (by omega)
        rw [magnitude, hor, show (back.toNat + 128) % 128 = back.toNat by omega, hsum]
      · refine minimal_of_magnitude (by omega) ?_ (by omega)
        rw [magnitude, Nat.mod_eq_of_lt (Nat.lt_of_not_le hhigh), hsum]

/-- **Script numbers are canonical.** A vector is accepted as minimal exactly when it is what its
value is written as, and every number of five bytes is read back. -/
theorem scriptNum_canonical {nMaxNumSize : Nat} (hmax : nMaxNumSize ≤ 5) :
    (∀ v : List UInt8, v.length ≤ nMaxNumSize →
      ((∃ n, ofVch v true nMaxNumSize = .ok n) ↔ serialize (setVch v) = v)) ∧
    ∀ n : Int, n.natAbs < 2 ^ 39 → ofVch (serialize n) true 5 = .ok n := by
  constructor
  · intro v hlen
    have hbound := setVch_bounds v (hlen.trans hmax)
    obtain ⟨hmin, hback⟩ := serialize_spec (n := setVch v) (by omega)
    rw [ofVch, if_neg (by omega), Bool.true_and]
    constructor
    · rintro ⟨n, hn⟩
      split at hn
      · cases hn
      · rename_i hv
        exact setVch_inj hmin (by simpa using hv) hback
    · intro h
      rw [h] at hmin
      exact ⟨_, if_neg (by simp [hmin])⟩
  · intro n hn
    obtain ⟨hmin, hback⟩ := serialize_spec (n := n) (by omega)
    have hlen : (serialize n).length ≤ 5 := by
      rcases eq_nil_or_concat' (serialize n) with heq | ⟨init, back, heq⟩
      · rw [heq]
        exact Nat.zero_le 5
      · rw [heq, isMinimal_concat] at hmin
        rw [heq, setVch_concat] at hback
        have hlt : 256 ^ init.length < 256 ^ 5 := by
          split at hback <;> omega
        have := (Nat.pow_lt_pow_iff_right (show 1 < 256 by decide)).mp hlt
        rw [heq, length_append, length_singleton]
        omega
    rw [ofVch, if_neg (by omega), hmin, hback]
    rfl

theorem scriptNum_canonical_255 :
    serialize (setVch [0xff, 0x00]) = [0xff, 0x00] ∧ ofVch (serialize (-255)) true 5 = .ok (-255) :=
  have h := scriptNum_canonical (show 4 ≤ 5 by decide)
  ⟨(h.1 [0xff, 0x00] (by decide)).mp ⟨255, by decide⟩, h.2 (-255) (by decide)⟩

/-! ## Reading and computing

No assertion fails on what was read (`ScriptNum.ends_neg`, `ends_addAssign`, `ends_subAssign`).
-/

/-- A number that has been read from the stack. -/
theorem ends_ofVch (fRequireMinimal : Bool) (nMaxNumSize : Nat) :
    Ends (fun n => n.natAbs < 128 * 256 ^ (nMaxNumSize - 1)) EvalFailure.Orderly
      (ofVch vch fRequireMinimal nMaxNumSize) := by
  refine .ite (fun _ => trivial) fun hsize => ?_
  refine .ite (fun _ => trivial) fun _ => ?_
  exact setVch_bounds vch (Nat.le_of_not_lt hsize)

/-- Numbers need not be minimal where that is not asked for. -/
theorem relaxes_ofVch {f g : Bool} (hfg : f = true → g = true) (nMaxNumSize : Nat) :
    Relaxes (ofVch vch f nMaxNumSize) (ofVch vch g nMaxNumSize) := by
  refine .ite (fun _ => .refl _) fun _ => ?_
  cases f with
  | false =>
    cases g && !isMinimal vch with
    | false => exact .refl _
    | true => exact .error _ _
  | true =>
    rw [hfg rfl]
    exact .refl _

end

theorem ends_neg {n : Int} (hn : n.natAbs < 2 ^ 31) :
    Ends (fun _ => True) EvalFailure.Orderly (neg n) := by
  rw [neg, if_neg (by omega)]
  trivial

theorem ends_addAssign {n : Int} (hn : n.natAbs < 2 ^ 31) :
    Ends (fun _ => True) EvalFailure.Orderly (addAssign n 1) := by
  rw [addAssign, if_pos (by omega)]
  trivial

theorem ends_subAssign {n : Int} (hn : n.natAbs < 2 ^ 31) :
    Ends (fun _ => True) EvalFailure.Orderly (subAssign n 1) := by
  rw [subAssign, if_pos (by omega)]
  trivial

end ScriptNum

end Chratos
