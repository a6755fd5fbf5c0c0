import Chratos.Consensus.CheckBlock

/-!
# Chratos — the inputs of a transaction (`main.cpp`: `CheckTxInputs`, `CheckInputs`)

Two passes over the inputs: the cheap one checks maturity and amounts, the other the scripts.
A coinstake is exempt from the comparison of value in and value out, and the script check of
its first input looks at nothing but the signature operations of the `scriptSig`.
-/

namespace Chratos

open Outcome List

variable {view : CCoinsView} {state : CValidationState} {env : Env} {tx : CTransaction}
  {flags : ScriptFlags} {fQueue fScriptChecks : Bool}

/-! ## Value in -/

section

variable (env : Env)

/-- The amount an input brings in, dividends included. -/
def inputAmount (view : CCoinsView) (txin : CTxIn) : Verdict Int := do
  let o ← orAssert (view.output? txin.prevout)
  orThrow (env.availableAmount (view.coins txin.prevout.hash) o)

/-- `CCoinsViewCache::GetValueIn`: an unchecked 64-bit sum. -/
def getValueIn (view : CCoinsView) (tx : CTransaction) : Verdict Int :=
  if tx.isCoinBase then pure 0
  else tx.vin.foldlM (fun nResult txin => do
    let amount ← inputAmount env view txin
    pure (int64 (nResult + amount))) 0

/-- `GetSpendHeight`; the entry of the view's best block is dereferenced unseen. -/
def getSpendHeight (view : CCoinsView) : Verdict Nat := do
  let pindexPrev ← orAssert (env.mapBlockIndex view.hashBlock)
  pure (pindexPrev.nHeight + 1)

/-! ## Maturity and amounts -/

/-- A generated output spent too early. At depth zero the rule does not apply. -/
def isPremature (coins : CCoins) (nSpendHeight : Nat) : Bool :=
  (coins.fCoinBase || coins.fCoinStake) && !env.fTestnet &&
    ((nSpendHeight : Int) - coins.nHeight < COINBASE_MATURITY &&
      0 < (nSpendHeight : Int) - coins.nHeight)

def checkTxInput (state : CValidationState) (view : CCoinsView) (nSpendHeight : Nat)
    (nValueIn : Int) (txin : CTxIn) : Verdict Int := do
  rejectIf (isPremature env (view.coins txin.prevout.hash) nSpendHeight)
    (state.invalid REJECT_INVALID "bad-txns-premature-spend-of-coinbase")
  let amount ← inputAmount env view txin
  let nValueIn := int64 (nValueIn + amount)
  rejectIf (!moneyRange amount || !moneyRange nValueIn)
    (state.doS 100 REJECT_INVALID "bad-txns-inputvalues-outofrange")
  pure nValueIn

variable (tx : CTransaction) (state : CValidationState)

/-- Value in against value out, for transactions that are not generated. -/
def checkTxFee (nValueIn : Int) : Verdict Unit := do
  let nValueOut ← orThrow tx.getValueOut
  rejectIf (nValueIn < nValueOut) (state.doS 100 REJECT_INVALID "bad-txns-in-belowout")
  let nTxFee := int64 (nValueIn - nValueOut)
  rejectIf (nTxFee < 0) (state.doS 100 REJECT_INVALID "bad-txns-fee-negative")
  rejectIf (!moneyRange nTxFee) (state.doS 100 REJECT_INVALID "bad-txns-fee-outofrange")

/-- `Consensus::CheckTxInputs`. -/
def checkTxInputs (view : CCoinsView) (nSpendHeight : Nat) : Verdict Unit := do
  rejectIf (!view.haveInputs tx) (state.invalid 0 "")
  let nValueIn ← tx.vin.foldlM (checkTxInput env state view nSpendHeight) 0
  onlyIf (!tx.isCoinBase && !tx.isCoinStake) (checkTxFee tx state nValueIn)

/-! ## Scripts -/

structure CScriptCheck where
  scriptPubKey : CScript
  amount : Int
  ptxTo : CTransaction
  nIn : Nat
  nFlags : ScriptFlags

/-- `VerifyScript` for an input, given the output it spends. -/
def verifyInput (nIn : Nat) (txin : CTxIn) (scriptPubKey : CScript)
    (amount : Int) (flags : ScriptFlags) : Except String Unit :=
  env.verifyScript txin.scriptSig scriptPubKey (tx.wit.getD nIn []) flags tx nIn amount

/-- `CScriptCheck::operator()`: a coinstake's first input is not verified. -/
def CScriptCheck.run (check : CScriptCheck) : Except String Unit :=
  match check.ptxTo.vin[check.nIn]? with
  | none => .error "unknown error"
  | some txin =>
    if check.ptxTo.isCoinStake && check.nIn = 0 then
      if getSigOpCount txin.scriptSig true = 0 then .ok () else .error "unknown error"
    else verifyInput env check.ptxTo check.nIn txin check.scriptPubKey check.amount check.nFlags

/-- The complaint about a failed check: milder when it was only a non-mandatory flag. -/
def scriptFailure (check : CScriptCheck) (err : String) : CValidationState :=
  if check.nFlags &&& STANDARD_NOT_MANDATORY_VERIFY_FLAGS ≠ 0 ∧
      ({ check with nFlags := check.nFlags &&& ~~~ STANDARD_NOT_MANDATORY_VERIFY_FLAGS }.run
        env).isOk then
    state.invalid REJECT_NONSTANDARD ("non-mandatory-script-verify-flag (" ++ err ++ ")")
  else state.doS 100 REJECT_INVALID ("mandatory-script-verify-flag-failed (" ++ err ++ ")")

/-- The timestamp of an output's transaction, checked above a fixed height. -/
def timestampViolation (txin : CTxIn) : Bool :=
  match env.getTransaction txin.prevout.hash with
  | none => false
  | some (txPrev, hashBlock) =>
    match env.mapBlockIndex hashBlock with
    | none => false
    | some pblockindex => tx.nTime < txPrev.nTime && 1294597 < pblockindex.nHeight

/-- One script check: made on the spot, or queued when there is a queue. -/
def checkInputScript (view : CCoinsView) (flags : ScriptFlags) (fQueue : Bool)
    (vChecks : List CScriptCheck) (input : CTxIn × Nat) : Verdict (List CScriptCheck) := do
  rejectIf (timestampViolation env tx input.1)
    (state.doS 100 REJECT_INVALID "tx-timestamp-earlier-as-output")
  let o ← orAssert (view.output? input.1.prevout)
  let check : CScriptCheck := ⟨o.scriptPubKey, o.nValue, tx, input.2, flags⟩
  if fQueue then pure (vChecks ++ [check])
  else match check.run env with
    | .ok () => pure vChecks
    | .error err => .error (.rejected (scriptFailure env state check err))

/-- `CheckInputs`: the checks it queued. -/
def checkInputs (view : CCoinsView)
    (fScriptChecks : Bool) (flags : ScriptFlags) (fQueue : Bool) : Verdict (List CScriptCheck) :=
  if tx.isCoinBase then pure []
  else do
    let nSpendHeight ← getSpendHeight env view
    checkTxInputs env tx state view nSpendHeight
    if fScriptChecks then
      tx.vin.zipIdx.foldlM (checkInputScript env tx state view flags fQueue) []
    else pure []

/-! ## What the first pass grants

The value in is exact and in range, and covers the value out of any transaction that is no coinstake
(`checkTxInputs_spec`).
-/

/-- The exact sum of what the inputs bring in. -/
def valueIn (view : CCoinsView) (tx : CTransaction) : Int :=
  (tx.vin.map fun i => ((inputAmount env view i).toOption).getD 0).sum

end

variable {nSpendHeight : Nat} {v : Int}

theorem checkTxInput_eq_ok {a : Int} {txin : CTxIn} (ha : moneyRange a = true)
    (h : checkTxInput env state view nSpendHeight a txin = .ok v) :
    isPremature env (view.coins txin.prevout.hash) nSpendHeight = false ∧
      ∃ amount, inputAmount env view txin = .ok amount ∧ v = a + amount ∧ moneyRange v = true := by
  simp only [checkTxInput, bind_eq_ok, rejectIf_eq_ok, exists_unit] at h
  obtain ⟨hmature, amount, hamount, hrange, hv⟩ := h
  simp only [Bool.or_eq_false_iff, Bool.not_eq_false'] at hrange
  rw [int64_add_of_moneyRange ha hrange.1] at hv hrange
  cases hv
  exact ⟨hmature, amount, hamount, rfl, hrange.2⟩

/-- The loop over the inputs adds up exactly. -/
theorem checkTxInput_loop {ins : List CTxIn}
    (h : ins.foldlM (checkTxInput env state view nSpendHeight) 0 = .ok v) :
    v = (ins.map fun i => ((inputAmount env view i).toOption).getD 0).sum ∧
      moneyRange v = true ∧ ∀ i ∈ ins, (∃ amount, inputAmount env view i = .ok amount) ∧
        isPremature env (view.coins i.prevout.hash) nSpendHeight = false := by
  refine foldlM_ok_rec (fun done v =>
    v = (done.map fun i => ((inputAmount env view i).toOption).getD 0).sum ∧
      moneyRange v = true ∧ ∀ i ∈ done, (∃ amount, inputAmount env view i = .ok amount) ∧
        isPremature env (view.coins i.prevout.hash) nSpendHeight = false)
    ?_ ⟨rfl, rfl, by simp⟩ h
  rintro done i a b ⟨ha, har, hall⟩ hstep
  obtain ⟨hmature, amount, hamount, hb, hbr⟩ := checkTxInput_eq_ok har hstep
  refine ⟨?_, hbr, ?_⟩
  · rw [map_append, sum_append, ← ha, hb]
    simp [hamount, Except.toOption]
  · exact forall_mem_append.mpr
      ⟨hall, forall_mem_singleton.mpr ⟨⟨amount, hamount⟩, hmature⟩⟩

/-- `GetValueIn` is the exact sum wrapped once, whatever the amounts. -/
theorem getValueIn_eq (hcb : tx.isCoinBase = false)
    (h : ∀ i ∈ tx.vin, ∃ a, inputAmount env view i = .ok a) :
    getValueIn env view tx = .ok (int64 (valueIn env view tx)) := by
  have key : ∀ (ins : List CTxIn) (a : Int), (∀ i ∈ ins, ∃ v, inputAmount env view i = .ok v) →
      ins.foldlM (fun nResult txin => do
        let amount ← inputAmount env view txin
        pure (int64 (nResult + amount))) (int64 a) =
      (.ok (int64 (a + (ins.map fun i => ((inputAmount env view i).toOption).getD 0).sum)) :
        Verdict Int) := by
    intro ins
    induction ins with
    | nil =>
      intro a _
      simp [pure, Except.pure]
    | cons i ins ih =>
      intro a hins
      obtain ⟨v, hv⟩ := hins i (by simp)
      have hrest := ih (a + v) (fun j hj => hins j (by simp [hj]))
      rw [foldlM_cons, hv]
      simp only [bind, Except.bind, pure, Except.pure, int64_int64_add] at hrest ⊢
      rw [hrest]
      simp [hv, Except.toOption, add_assoc]
  have hzero : int64 0 = 0 := rfl
  have := key tx.vin 0 h
  rw [hzero, zero_add] at this
  rw [getValueIn, if_neg (by simp [hcb]), this, valueIn]

theorem checkTxFee_eq_ok (h : checkTxFee tx state v = .ok ()) : tx.valueOut ≤ v := by
  simp only [checkTxFee, bind_eq_ok, orThrow_eq_ok, rejectIf_eq_ok, exists_unit,
    decide_eq_false_iff_not, not_lt] at h
  obtain ⟨out, hout, hle, -⟩ := h
  rw [← (CTransaction.getValueOut_eq_some hout).1]
  exact hle

/-- What `CheckTxInputs` grants a transaction that is not a coinbase. -/
structure CheckedInputs (env : Env) (view : CCoinsView) (nSpendHeight : Nat)
    (tx : CTransaction) : Prop where
  have_inputs : view.haveInputs tx = true
  mature : ∀ i ∈ tx.vin, isPremature env (view.coins i.prevout.hash) nSpendHeight = false
  range : moneyRange (valueIn env view tx) = true
  getValueIn_eq : getValueIn env view tx = .ok (valueIn env view tx)
  covers : tx.isCoinStake = false → tx.valueOut ≤ valueIn env view tx

theorem checkTxInputs_spec (hcb : tx.isCoinBase = false)
    (h : checkTxInputs env tx state view nSpendHeight = .ok ()) :
    CheckedInputs env view nSpendHeight tx := by
  simp only [checkTxInputs, bind_eq_ok, rejectIf_eq_ok, exists_unit, Bool.not_eq_false',
    onlyIf_eq_ok] at h
  obtain ⟨hhave, v, hloop, hfee⟩ := h
  obtain ⟨hv, hvr, hall⟩ := checkTxInput_loop hloop
  have hrange : moneyRange (valueIn env view tx) = true := by rw [valueIn, ← hv]; exact hvr
  have hget := getValueIn_eq hcb (fun i hi => (hall i hi).1)
  have hexact : int64 (valueIn env view tx) = valueIn env view tx := by
    have := int64_add_of_moneyRange hrange moneyRange_zero
    simpa using this
  refine ⟨hhave, fun i hi => (hall i hi).2, hrange, by rw [hget, hexact], fun hcs => ?_⟩
  have := checkTxFee_eq_ok (hfee (by simp [hcb, hcs]))
  rw [valueIn, ← hv]
  exact this

/-! ## The second pass, made on the spot and queued

Without a queue every script check of an accepted transaction has passed; with one, each is only
appended to the queue (`Settled`) (`checkInputs_eq_ok`).
-/

/-- The check of an input, once the output it spends is known. -/
def scriptCheckOf (tx : CTransaction) (flags : ScriptFlags) (nIn : Nat) (o : CTxOut) :
    CScriptCheck :=
  ⟨o.scriptPubKey, o.nValue, tx, nIn, flags⟩

theorem scriptCheckOf_run_eq (env : Env) (tx : CTransaction) (flags : ScriptFlags) (nIn : Nat)
    (o : CTxOut) :
    (scriptCheckOf tx flags nIn o).run env = match tx.vin[nIn]? with
      | none => .error "unknown error"
      | some txin =>
        if tx.isCoinStake && nIn = 0 then
          if getSigOpCount txin.scriptSig true = 0 then .ok () else .error "unknown error"
        else verifyInput env tx nIn txin o.scriptPubKey o.nValue flags := rfl

/-- The check an input calls for, where nothing before the script stands against it. -/
def CallsFor (env : Env) (tx : CTransaction) (view : CCoinsView) (flags : ScriptFlags)
    (input : CTxIn × Nat) (c : CScriptCheck) : Prop :=
  timestampViolation env tx input.1 = false ∧ ∃ o, view.output? input.1.prevout = some o ∧
    c = scriptCheckOf tx flags input.2 o

/-- What becomes of checks that are called for: they join the queue, or they are made at once. -/
def Settled (env : Env) (fQueue : Bool) (cs acc r : List CScriptCheck) : Prop :=
  if fQueue then r = acc ++ cs else r = acc ∧ ∀ c ∈ cs, c.run env = .ok ()

section

variable {r acc cs cs' : List CScriptCheck}

theorem settled_nil : Settled env fQueue [] acc r ↔ r = acc := by
  cases fQueue <;> simp [Settled]

theorem settled_append : Settled env fQueue (cs ++ cs') acc r ↔
    ∃ u, Settled env fQueue cs acc u ∧ Settled env fQueue cs' u r := by
  cases fQueue with
  | true => simp [Settled]
  | false =>
    simp only [Settled, Bool.false_eq_true, if_false, forall_mem_append]
    constructor
    · rintro ⟨rfl, hall, hall'⟩
      exact ⟨r, ⟨rfl, hall⟩, rfl, hall'⟩
    · rintro ⟨u, ⟨rfl, hall⟩, rfl, hall'⟩
      exact ⟨rfl, hall, hall'⟩

/-- Checks are settled alike behind others and on their own. -/
theorem settled_iff :
    Settled env fQueue cs acc r ↔ ∃ u, Settled env fQueue cs [] u ∧ r = acc ++ u := by
  cases fQueue with
  | true => simp [Settled]
  | false => simp [Settled, and_comm]

theorem exists_settled :
    (∃ r, Settled env fQueue cs acc r) ↔ (fQueue = false → ∀ c ∈ cs, c.run env = .ok ()) := by
  cases fQueue <;> simp [Settled]

theorem checkInputScript_eq_ok {input : CTxIn × Nat} :
    checkInputScript env tx state view flags fQueue acc input = .ok r ↔
      ∃ c, CallsFor env tx view flags input c ∧ Settled env fQueue [c] acc r := by
  have hsettle : ∀ c : CScriptCheck, (if fQueue then pure (acc ++ [c])
      else match c.run env with
        | .ok () => pure acc
        | .error err => .error (.rejected (scriptFailure env state c err)) : Verdict _) = .ok r ↔
      Settled env fQueue [c] acc r := by
    intro c
    cases fQueue with
    | true => simp [Settled, pure, Except.pure, eq_comm]
    | false => cases hrun : c.run env <;> simp [Settled, hrun, pure, Except.pure, eq_comm]
  simp only [checkInputScript, bind_eq_ok, rejectIf_eq_ok, exists_unit, orAssert_eq_ok, hsettle]
  constructor
  · rintro ⟨htime, o, ho, hr⟩
    exact ⟨_, ⟨htime, o, ho, rfl⟩, hr⟩
  · rintro ⟨_, ⟨htime, o, ho, rfl⟩, hr⟩
    exact ⟨htime, o, ho, hr⟩

theorem checkInputScript_loop {ins : List (CTxIn × Nat)} :
    ins.foldlM (checkInputScript env tx state view flags fQueue) acc = .ok r ↔
      ∃ cs, List.Forall₂ (CallsFor env tx view flags) ins cs ∧ Settled env fQueue cs acc r := by
  induction ins generalizing acc with
  | nil => simp [settled_nil, pure, Except.pure, eq_comm]
  | cons input ins ih =>
    have hcons : ∀ c cs, Settled env fQueue (c :: cs) acc r ↔
        ∃ u, Settled env fQueue [c] acc u ∧ Settled env fQueue cs u r := fun c cs => by
      rw [← singleton_append, settled_append]
    simp only [foldlM_cons_eq_ok, checkInputScript_eq_ok, ih, forall₂_cons_left_iff]
    constructor
    · rintro ⟨u, ⟨c, hc, hset⟩, cs, hcs, hset'⟩
      exact ⟨c :: cs, ⟨c, cs, hc, hcs, rfl⟩, (hcons c cs).mpr ⟨u, hset, hset'⟩⟩
    · rintro ⟨_, ⟨c, cs, hc, hcs, rfl⟩, hset⟩
      obtain ⟨u, hset, hset'⟩ := (hcons c cs).mp hset
      exact ⟨u, ⟨c, hc, hset⟩, cs, hcs, hset'⟩

end

/-- Everything `CheckInputs` asks for but the scripts themselves, with the script checks that
remain to be made. -/
def InputChecks (env : Env) (tx : CTransaction) (state : CValidationState) (view : CCoinsView)
    (fScriptChecks : Bool) (flags : ScriptFlags) (cs : List CScriptCheck) : Prop :=
  if tx.isCoinBase then cs = []
  else ∃ nSpendHeight, getSpendHeight env view = .ok nSpendHeight ∧
    checkTxInputs env tx state view nSpendHeight = .ok () ∧
    if fScriptChecks then List.Forall₂ (CallsFor env tx view flags) tx.vin.zipIdx cs else cs = []

section

variable {r : List CScriptCheck}

theorem checkInputs_eq_ok : checkInputs env tx state view fScriptChecks flags fQueue = .ok r ↔
      ∃ cs, InputChecks env tx state view fScriptChecks flags cs ∧ Settled env fQueue cs [] r := by
  unfold checkInputs InputChecks
  cases tx.isCoinBase with
  | true => simp [settled_nil, pure, Except.pure, eq_comm]
  | false =>
    simp only [Bool.false_eq_true, if_false, bind_eq_ok, exists_unit]
    cases fScriptChecks with
    | true =>
      simp only [if_true, checkInputScript_loop]
      constructor
      · rintro ⟨h, hh, hin, cs, hcs, hset⟩
        exact ⟨cs, ⟨h, hh, hin, hcs⟩, hset⟩
      · rintro ⟨cs, ⟨h, hh, hin, hcs⟩, hset⟩
        exact ⟨h, hh, hin, cs, hcs, hset⟩
    | false => simp [settled_nil, pure, Except.pure, eq_comm, and_assoc]

end

theorem InputChecks.checkedInputs {cs : List CScriptCheck}
    (hcb : tx.isCoinBase = false) (h : InputChecks env tx state view fScriptChecks flags cs) :
    ∃ nSpendHeight, getSpendHeight env view = .ok nSpendHeight ∧
      CheckedInputs env view nSpendHeight tx := by
  rw [InputChecks, if_neg (by simp [hcb])] at h
  obtain ⟨nSpendHeight, hh, hin, -⟩ := h
  exact ⟨nSpendHeight, hh, checkTxInputs_spec hcb hin⟩

end Chratos
