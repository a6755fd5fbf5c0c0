import Chratos.Lib.Outcome

/-!
# Chratos — the validation state (`consensus/validation.h`)

Every check reports through a `CValidationState`: `DoS` records the offence and turns the
mode to *invalid*, `Invalid` is `DoS` at level zero. A check that fails by a bare
`return error(...)` leaves the state as it was, so a caller that asks `IsInvalid()` cannot
tell the rejection from a local fault: the distinction between *rejected with the state set*
and *rejected with the state untouched* is the reason the state is carried in the model.

A run of a check is an `Except Failure`: it passes (and none of the checks changes the state
on that path), is refused with a state, throws, or stops the process.
-/

namespace Chratos

open Outcome

inductive ModeState where
  | MODE_VALID
  | MODE_INVALID
  | MODE_ERROR
  deriving DecidableEq, Repr

def REJECT_INVALID : Nat := 0x10
def REJECT_NONSTANDARD : Nat := 0x40

structure CValidationState where
  mode : ModeState := .MODE_VALID
  nDoS : Int := 0
  strRejectReason : String := ""
  chRejectCode : Nat := 0
  corruptionPossible : Bool := false
  deriving DecidableEq, Repr

namespace CValidationState

def doS (s : CValidationState) (level : Int) (chRejectCodeIn : Nat := 0)
    (strRejectReasonIn : String := "") (corruptionIn : Bool := false) : CValidationState :=
  let s := { s with
    chRejectCode := chRejectCodeIn
    strRejectReason := strRejectReasonIn
    corruptionPossible := corruptionIn }
  if s.mode = .MODE_ERROR then s
  else { s with nDoS := s.nDoS + level, mode := .MODE_INVALID }

def invalid (s : CValidationState) (chRejectCode : Nat := 0) (strRejectReason : String := "") :
    CValidationState :=
  s.doS 0 chRejectCode strRejectReason false

def isInvalid (s : CValidationState) : Bool := s.mode = .MODE_INVALID

theorem doS_isInvalid {s : CValidationState} (hs : s.mode ≠ .MODE_ERROR) (level : Int)
    (code : Nat) (reason : String) (corruption : Bool) :
    (s.doS level code reason corruption).isInvalid = true := by
  simp [doS, isInvalid, hs]

end CValidationState

/-- The ways a check can fail to pass. -/
inductive Failure where
  /-- `return false`, with the validation state as the caller finds it. -/
  | rejected (state : CValidationState)
  /-- An exception leaves the function. -/
  | thrown
  /-- A failed `assert`, or an access the language gives no meaning to. -/
  | asserted
  deriving DecidableEq, Repr

/-- The outcome of a check. -/
abbrev Verdict (α : Type) := Except Failure α

/-- An expression that may throw. -/
def orThrow {α : Type} : Option α → Verdict α
  | some a => .ok a
  | none => .error .thrown

/-- An expression the code takes to be there. -/
def orAssert {α : Type} : Option α → Verdict α
  | some a => .ok a
  | none => .error .asserted

variable {α : Type} {c : Bool} {v : Verdict Unit}

@[simp] theorem orThrow_eq_ok {o : Option α} {a : α} : orThrow o = .ok a ↔ o = some a := by
  cases o <;> simp [orThrow]

@[simp] theorem orAssert_eq_ok {o : Option α} {a : α} : orAssert o = .ok a ↔ o = some a := by
  cases o <;> simp [orAssert]

/-- `if (c) return state.DoS(...)`. -/
def rejectIf (c : Bool) (s : CValidationState) : Verdict Unit := Outcome.failIf c (.rejected s)

@[simp] theorem rejectIf_eq_ok {s : CValidationState} {u : Unit} :
    rejectIf c s = .ok u ↔ c = false :=
  failIf_eq_ok

/-- A check that is made under a condition only. -/
def onlyIf (c : Bool) (v : Verdict Unit) : Verdict Unit := if c then v else .ok ()

@[simp] theorem onlyIf_eq_ok : onlyIf c v = .ok () ↔ (c = true → v = .ok ()) := by
  cases c <;> simp [onlyIf]

/-- One check after another. -/
theorem bind_ok_iff {f : Unit → Verdict α} {a : α} :
    (v >>= f) = .ok a ↔ v = .ok () ∧ f () = .ok a := by
  rw [bind_eq_ok, exists_unit]

/-- A check passes. -/
def accepts {α : Type} (v : Verdict α) : Bool := v.isOk

@[simp] theorem accepts_iff {v : Verdict α} : accepts v = true ↔ ∃ a, v = .ok a := by
  cases v <;> simp [accepts, Except.isOk, Except.toBool]

end Chratos
