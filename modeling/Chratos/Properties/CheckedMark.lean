import Chratos.Lib.Program
import Chratos.Properties.Conservation

/-!
# Chratos — the mark of a checked block (`main.cpp`: `CheckBlock`)

`CheckBlock` sets `fChecked` once it has come to its end with `fCheckMerkleRoot`, and returns true for a
marked block at once, whatever it is asked to check. The mark does not say whether the signature of the
block was looked at.
-/

namespace Chratos

open Outcome CheckBlockCall

/-! ## The outcome does not depend on the validation state -/

theorem relaxes_checkTransaction (tx : CTransaction) (state state' : CValidationState) :
    Relaxes (checkTransaction tx state) (checkTransaction tx state') := by
  apply Relaxes.bind (.failIf id)
  intro _
  apply Relaxes.bind (.failIf id)
  intro _
  apply Relaxes.bind (.failIf id)
  intro _
  apply Relaxes.bind
  · -- the outputs
    refine .foldlM (fun nValueOut o => ?_) _ _
    refine .bind (.failIf id) fun _ => .bind (.failIf id) fun _ =>
      .bind (.failIf id) fun _ => ?_
    exact .bind (.failIf id) fun _ => .refl _
  intro _
  apply Relaxes.bind
  · -- the inputs
    refine .foldlM (fun seen i => ?_) _ _
    exact .bind (.failIf id) fun _ => .refl _
  intro _
  exact .ite (fun _ => .failIf id) fun _ => .failIf id

theorem relaxes_checkTransactions (block : CBlock) (state state' : CValidationState) :
    Relaxes (checkTransactions block state) (checkTransactions block state') := by
  intro u hpass
  apply forM_eq_ok.mpr
  intro tx htx
  have hround := forM_eq_ok.mp hpass tx htx
  have htx' : checkTransaction tx state' = .ok () := by
    split at hround
    · cases hround
    · exact hround
  rw [relaxes_checkTransaction tx state state' () htx']

theorem relaxes_checkShape (block : CBlock) (state state' : CValidationState) :
    Relaxes (checkShape block state) (checkShape block state') := by
  exact .bind (.failIf id) fun _ => .bind (.failIf id) fun _ =>
    .bind (.failIf id) fun _ => .bind (.failIf id) fun _ =>
    .failIf id

theorem relaxes_onlyIf {c : Bool} {x y : Verdict Unit} (h : Relaxes x y) :
    Relaxes (onlyIf c x) (onlyIf c y) :=
  .ite (fun _ => h) fun _ => .refl _

/-- The checks behind the shortcut read neither the state that comes in nor the mark; fewer of them may
be asked for. -/
theorem relaxes_checkBlockBody (env : Env) (block : CBlock) (fChecked : Bool)
    (state state' : CValidationState) (fCheckMerkleRoot : Bool) {fCheckSig fCheckSig' : Bool}
    (hsig : (fCheckSig' && !checkBlockSignature env block) = false →
      (fCheckSig && !checkBlockSignature env block) = false) :
    Relaxes (checkBlockBody env { block with fChecked := fChecked } state fCheckMerkleRoot fCheckSig)
      (checkBlockBody env block state' fCheckMerkleRoot fCheckSig') := by
  apply Relaxes.bind (relaxes_onlyIf (.failIf id))
  intro _
  apply Relaxes.bind (relaxes_onlyIf (.bind (.failIf id) fun _ => .failIf id))
  intro _
  apply Relaxes.bind (relaxes_checkShape block state state')
  intro _
  apply Relaxes.bind (.failIf hsig)
  intro _
  exact .bind (relaxes_checkTransactions block state state') fun _ => .failIf id

/-! ## The mark along the calls -/

section

variable {env : Env} {block : CBlock}

/-- The object without its mark, as it is copied or read from disk. -/
def CBlock.fresh (block : CBlock) : CBlock := { block with fChecked := false }

variable {fCheckSig : Bool} {state : CValidationState}

/-- Whether a fresh copy passes does not depend on the state that comes in. -/
theorem checkBlock_fresh_of (state state' : CValidationState) {fCheckMerkleRoot : Bool}
    (h : checkBlock env block.fresh state fCheckMerkleRoot fCheckSig = .ok ()) :
    checkBlock env block.fresh state' fCheckMerkleRoot fCheckSig = .ok () := by
  have hbody : checkBlockBody env block.fresh state fCheckMerkleRoot fCheckSig = .ok () := h
  exact relaxes_checkBlockBody env block.fresh false state' state fCheckMerkleRoot id () hbody

/-- With a good signature it makes no difference whether it is looked at. -/
theorem checkBlock_fresh_of_signature (hsig : checkBlockSignature env block = true)
    (h : checkBlock env block.fresh state true fCheckSig = .ok ()) :
    checkBlock env block.fresh state true true = .ok () := by
  have hgood : checkBlockSignature env block.fresh = true := hsig
  have hbody : checkBlockBody env block.fresh state true fCheckSig = .ok () := h
  refine relaxes_checkBlockBody env block.fresh false state state true (fun _ => ?_) () hbody
  rw [hgood]
  rfl

/-- A full check looks at the signature. -/
theorem checkBlockSignature_of_checkBlock
    (h : checkBlock env block.fresh state true true = .ok ()) :
      checkBlockSignature env block = true := by
  have hbody : checkBlockBody env block.fresh state true true = .ok () := h
  unfold checkBlockBody at hbody
  simp only [bind_ok_iff, rejectIf_eq_ok, Bool.true_and, Bool.not_eq_false'] at hbody
  obtain ⟨-, -, -, hsig, -⟩ := hbody
  exact hsig

/-- What a call leaves of a block: everything but the mark stays. -/
theorem CheckBlockCall.run_snd (call : CheckBlockCall) (block : CBlock) :
    (call.run env block).2 = { block with fChecked := block.fChecked || (call.fCheckMerkleRoot &&
      accepts (checkBlock env block call.state call.fCheckMerkleRoot call.fCheckSig)) } := by
  unfold run
  cases hcheck : checkBlock env block call.state call.fCheckMerkleRoot call.fCheckSig with
  | ok u => simp [accepts, Except.isOk, Except.toBool]
  | error failure => simp [accepts, Except.isOk, Except.toBool]

/-- The call on a fresh copy passes, with the merkle root. -/
def CheckBlockCall.Marks (env : Env) (block : CBlock) (call : CheckBlockCall) : Prop :=
  call.fCheckMerkleRoot = true ∧ checkBlock env block.fresh call.state true call.fCheckSig = .ok ()

/-- **The mark** tells that it was there before, or that one of the calls has set it. -/
theorem fChecked_afterCalls_iff (env : Env) (block : CBlock) (calls : List CheckBlockCall)
    (fChecked : Bool) :
    ∃ mark, { block with fChecked := fChecked }.afterCalls env calls = { block with fChecked := mark } ∧
      (mark = true ↔ fChecked = true ∨ ∃ call ∈ calls, call.Marks env block) := by
  induction calls generalizing fChecked with
  | nil => exact ⟨fChecked, rfl, by simp⟩
  | cons call calls ih =>
    -- the first call sets the mark or leaves it, the others start from there
    obtain ⟨mark, hafter, hmark⟩ := ih (fChecked || (call.fCheckMerkleRoot && accepts (checkBlock env
      { block with fChecked := fChecked } call.state call.fCheckMerkleRoot call.fCheckSig)))
    refine ⟨mark, ?_, ?_⟩
    · rw [← hafter, CBlock.afterCalls, List.foldl_cons, call.run_snd]
      rfl
    · rw [hmark]
      cases fChecked with
      | true => simp
      | false =>
        have hfirst : (call.fCheckMerkleRoot && accepts (checkBlock env { block with fChecked := false }
            call.state call.fCheckMerkleRoot call.fCheckSig)) = true ↔ call.Marks env block := by
          rw [Bool.and_eq_true, accepts_iff]
          constructor
          · intro h
            obtain ⟨hroot, u, hpass⟩ := h
            rw [hroot] at hpass
            exact ⟨hroot, hpass⟩
          · intro h
            refine ⟨h.1, (), ?_⟩
            rw [h.1]
            exact h.2
        rw [Bool.false_or, hfirst]
        simp

/-! ## The law -/

/-- The call with everything asked for. -/
def CheckBlockCall.full (state : CValidationState) : CheckBlockCall := ⟨state, true, true, true⟩

theorem CheckBlockCall.run_fst (call : CheckBlockCall) (block : CBlock) :
    (call.run env block).1 = checkBlock env block call.state call.fCheckMerkleRoot call.fCheckSig := by
  unfold run
  cases checkBlock env block call.state call.fCheckMerkleRoot call.fCheckSig <;> rfl

/-- **When the mark can be trusted.** After any calls on a block object, a full check says of it
only what it says of a fresh copy, exactly if the signature is good or no call without a look at the
signature has passed the block. -/
theorem checkBlock_cached_iff (env : Env) (block : CBlock) (calls : List CheckBlockCall)
    (state state' : CValidationState) :
    (((full state).run env (block.fresh.afterCalls env calls)).1 = .ok () →
        ((full state').run env block.fresh).1 = .ok ()) ↔
      checkBlockSignature env block = true ∨
        ∀ call ∈ calls, call.fCheckMerkleRoot = true → call.fCheckSig = false →
          (call.run env block.fresh).1 ≠ .ok () := by
  obtain ⟨mark, hafter, hmark⟩ := fChecked_afterCalls_iff env block calls false
  have hcalls : block.fresh.afterCalls env calls = { block with fChecked := mark } := hafter
  rw [run_fst, run_fst, hcalls]
  constructor
  · intro hsound
    cases hsig : checkBlockSignature env block with
    | true => exact .inl rfl
    | false =>
      -- a call that passes without the signature sets the mark, and the full check passes
      right
      intro call hcall hroot hnosig hpass
      rw [run_fst, hroot] at hpass
      have hmarked : mark = true := hmark.mpr (.inr ⟨call, hcall, hroot, hpass⟩)
      rw [hmarked] at hsound
      rw [checkBlockSignature_of_checkBlock (hsound rfl)] at hsig
      cases hsig
  · intro hcond hpass
    cases hm : mark with
    | false =>
      rw [hm] at hpass
      exact checkBlock_fresh_of state state' hpass
    | true =>
      rcases hmark.mp hm with hfalse | ⟨call, hcall, hroot, hmarks⟩
      · cases hfalse
      · -- the call that set the mark stands for the full check
        have hfull : checkBlock env block.fresh call.state true true = .ok () := by
          cases hlooks : call.fCheckSig with
          | true =>
            rw [hlooks] at hmarks
            exact hmarks
          | false =>
            rcases hcond with hsig | hnone
            · exact checkBlock_fresh_of_signature hsig hmarks
            · refine absurd ?_ (hnone call hcall hroot hlooks)
              rw [run_fst, hroot]
              exact hmarks
        exact checkBlock_fresh_of call.state state' hfull

end

/-! ## A block that is signed later -/

/-- A proof-of-stake block with a signature that is not its staker's. -/
def misSigned : CBlock := { stakeBlock [0x51] 0 [] with vchBlockSig := [2] }

/-- The check of the block before it is signed, as for a block template, sets the mark: the full check
passes the block with the wrong signature, where it rejects a fresh copy. -/
theorem misSigned_passes_when_marked :
    ((mk {} true true false).run (sampleEnv 101) misSigned.fresh).1 = .ok () ∧
    ((full {}).run (sampleEnv 101)
      (misSigned.fresh.afterCalls (sampleEnv 101) [⟨{}, true, true, false⟩])).1 = .ok () ∧
    ((full {}).run (sampleEnv 101) misSigned.fresh).1 = .error (.rejected {}) := by
  decide +kernel

end Chratos
