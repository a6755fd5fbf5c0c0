import Chratos.Properties.Conservation

/-!
# Chratos — which scripts an accepted block has satisfied

`ConnectBlock` asks `CheckInputs` for the scripts of every transaction but the coinbase. What
reaches the interpreter of that depends on two things.

* `CScriptCheck::operator()` lets the first input of a coinstake through when its `scriptSig`
  counts no signature operations, and `CheckProofOfStake` is called with signature checking
  off. So the kernel input is the one input nobody verifies: `spends_verified_iff`.
* With script-check threads the checks go to a queue, and `ConnectBlock` waits for the queue's
  verdict without looking at it: `connectBlock_threads_agree_iff`.

Both rest on one description of a run, `BlockRun.scripts_iff`: the checks a block calls for all
pass exactly when every input's check passes on the output it spends.
-/

namespace Chratos

open Outcome List

variable {view : CCoinsView} {env : Env} {tx : CTransaction} {fJustCheck : Bool}

/-! ## Properties of all inputs of a block -/

/-- A test of an input, given its transaction, its place and the output it spends. -/
abbrev InputTest := CTransaction → Nat → CTxIn → CTxOut → Bool

/-- Every input spends an output of the view and passes the test. Coinbases have no inputs. -/
def inputsPass (test : InputTest) (view : CCoinsView) (tx : CTransaction) : Bool :=
  tx.isCoinBase || tx.vin.zipIdx.all fun input =>
    (view.output? input.1.prevout).any (test tx input.2 input.1)

/-- The same for transactions connected one after another. -/
def blockInputsPass (env : Env) (nHeight : Nat) (test : InputTest) :
    CCoinsView → List CTransaction → Bool
  | _, [] => true
  | view, tx :: txs =>
    inputsPass test view tx && match updateCoins (env.txHash tx) tx view nHeight with
      | .ok (view', _) => blockInputsPass env nHeight test view' txs
      | .error _ => true

/-- The input's own check, as `CheckInputs` makes it. -/
def checkRuns (env : Env) (flags : ScriptFlags) : InputTest :=
  fun tx nIn _ o => ((scriptCheckOf tx flags nIn o).run env).isOk

/-- `VerifyScript` accepts the input. -/
def scriptVerifies (env : Env) (flags : ScriptFlags) : InputTest :=
  fun tx nIn txin o => (verifyInput env tx nIn txin o.scriptPubKey o.nValue flags).isOk

/-- The kernel input of a coinstake. -/
def isKernel (tx : CTransaction) (nIn : Nat) : Bool := tx.isCoinStake && nIn = 0

/-- `VerifyScript` accepts the input if it is a kernel. -/
def kernelVerifies (env : Env) (flags : ScriptFlags) : InputTest :=
  fun tx nIn txin o => !isKernel tx nIn || scriptVerifies env flags tx nIn txin o

variable {nHeight : Nat} {test : InputTest} {txs : List CTransaction}

theorem blockInputsPass_cons {view' : CCoinsView} {undo : CTxUndo}
    (h : updateCoins (env.txHash tx) tx view nHeight = .ok (view', undo)) :
    blockInputsPass env nHeight test view (tx :: txs) =
      (inputsPass test view tx && blockInputsPass env nHeight test view' txs) := by
  rw [blockInputsPass, h]

/-- Two tests that agree on inputs that pass a third agree on blocks that pass it. -/
theorem blockInputsPass_congr {given test' : InputTest}
    (h : ∀ (tx : CTransaction) (nIn : Nat) (txin : CTxIn) (o : CTxOut), tx.vin[nIn]? = some txin →
      given tx nIn txin o = true → test tx nIn txin o = test' tx nIn txin o)
    (hgiven : blockInputsPass env nHeight given view txs = true) :
    blockInputsPass env nHeight test view txs = blockInputsPass env nHeight test' view txs := by
  induction txs generalizing view with
  | nil => rfl
  | cons tx txs ih =>
    rw [blockInputsPass, Bool.and_eq_true] at hgiven
    -- The inputs of this transaction.
    have hone : inputsPass test view tx = inputsPass test' view tx := by
      unfold inputsPass
      cases hcb : tx.isCoinBase with
      | true => rfl
      | false =>
        have hall := hgiven.1
        rw [inputsPass, hcb, Bool.false_or, all_eq_true] at hall
        rw [Bool.false_or, Bool.false_or, Bool.eq_iff_iff, all_eq_true, all_eq_true]
        refine forall₂_congr fun input hinput => ?_
        have hin := hall input hinput
        cases ho : view.output? input.1.prevout with
        | none => simp
        | some o =>
          rw [ho] at hin
          show test tx input.2 input.1 o = true ↔ test' tx input.2 input.1 o = true
          rw [h tx input.2 input.1 o (mem_zipIdx_iff_getElem?.mp hinput) hin]
    -- The rest, from the view this one leaves.
    have hrest := hgiven.2
    cases hup : updateCoins (env.txHash tx) tx view nHeight with
    | error _ => rw [blockInputsPass, blockInputsPass, hone, hup]
    | ok p =>
      rw [hup] at hrest
      rw [blockInputsPass_cons hup, blockInputsPass_cons hup, hone, ih hrest]

/-! ## The checks of a run -/

section

variable {block : CBlock} {state : CValidationState} {pindex : BlockPlace} {flags : ScriptFlags}
  {cs : List CScriptCheck} {s : ConnectState}

/-- The checks of one transaction pass exactly when each of its inputs passes its own. -/
theorem InputChecks.scripts_iff (h : InputChecks env tx state view true flags cs) :
    (∀ c ∈ cs, c.run env = .ok ()) ↔ inputsPass (checkRuns env flags) view tx = true := by
  unfold InputChecks at h
  cases hcb : tx.isCoinBase with
  | true =>
    rw [if_pos hcb] at h
    simp [h, inputsPass, hcb]
  | false =>
    rw [if_neg (by simp [hcb]), if_pos rfl] at h
    obtain ⟨_, -, -, hcalls⟩ := h
    rw [inputsPass, hcb, Bool.false_or]
    generalize tx.vin.zipIdx = ins at hcalls
    induction hcalls with
    | nil => simp
    | @cons input c ins cs hcall _ ih =>
      obtain ⟨-, o, ho, rfl⟩ := hcall
      rw [forall_mem_cons, all_cons, Bool.and_eq_true, ih, ho]
      refine and_congr_left fun _ => ?_
      show _ ↔ ((scriptCheckOf tx flags input.2 o).run env).isOk = true
      cases (scriptCheckOf tx flags input.2 o).run env <;> simp [Except.isOk, Except.toBool]

variable {txs : List (CTransaction × Nat)} {s' : ConnectState} {nIn : Nat} {txin : CTxIn}
  {o : CTxOut}

/-- The checks of a run pass exactly when every input of it passes its own. -/
theorem BlockRun.scripts_iff (hscripts : scriptChecksEnabled env pindex = true)
    (hrun : BlockRun env block state pindex txs s s' cs) : (∀ c ∈ cs, c.run env = .ok ()) ↔
      blockInputsPass env pindex.nHeight (checkRuns env (connectFlags env block pindex.pprev))
        s.view (txs.map (·.1)) = true := by
  induction hrun with
  | nil s => simp [blockInputsPass]
  | cons hin heff _ ih =>
    rw [hscripts] at hin
    obtain ⟨undo, hup, -⟩ := heff.update
    rw [forall_mem_append, map_cons, blockInputsPass_cons hup, Bool.and_eq_true,
      hin.scripts_iff, ih]

/-- With script checks off, a run calls for none. -/
theorem BlockRun.scripts_nil (hscripts : scriptChecksEnabled env pindex = false)
    (hrun : BlockRun env block state pindex txs s s' cs) : cs = [] := by
  induction hrun with
  | nil s => rfl
  | cons hin _ _ ih =>
    rw [ih, append_nil]
    unfold InputChecks at hin
    split at hin
    · exact hin
    · obtain ⟨_, -, -, hnone⟩ := hin
      simpa [hscripts] using hnone

theorem PassesButScripts.scripts_iff (hscripts : scriptChecksEnabled env pindex = true)
    (hpass : PassesButScripts env block state pindex view fJustCheck s cs) :
    (∀ c ∈ cs, c.run env = .ok ()) ↔
      blockInputsPass env pindex.nHeight (checkRuns env (connectFlags env block pindex.pprev))
        view block.vtx = true := by
  have h := hpass.run.scripts_iff hscripts
  rwa [zipIdx_map_fst] at h

/-! ## Spend authorisation -/

/-- What the check of an input looks at. -/
theorem scriptCheckOf_run (htxin : tx.vin[nIn]? = some txin) :
    (scriptCheckOf tx flags nIn o).run env = if isKernel tx nIn then
        if getSigOpCount txin.scriptSig true = 0 then .ok () else .error "unknown error"
      else verifyInput env tx nIn txin o.scriptPubKey o.nValue flags := by
  have hget : (scriptCheckOf tx flags nIn o).ptxTo.vin[(scriptCheckOf tx flags nIn o).nIn]? =
      some txin := htxin
  rw [CScriptCheck.run, hget]
  rfl

/-- Away from kernels an input's own check is `VerifyScript`. -/
theorem checkRuns_eq (htxin : tx.vin[nIn]? = some txin) (hkernel : isKernel tx nIn = false) :
    checkRuns env flags tx nIn txin o = scriptVerifies env flags tx nIn txin o := by
  rw [checkRuns, scriptCheckOf_run htxin, if_neg (by simp [hkernel]), scriptVerifies]

/-- **Spend authorisation.** In a block that `ConnectBlock` accepts while it checks scripts
itself, every input satisfies the script it spends exactly when the kernel inputs do. -/
theorem spends_verified_iff {r : Connected}
    (hgen : env.blockHash block ≠ env.consensus.hashGenesisBlock)
    (hscripts : scriptChecksEnabled env pindex = true)
    (hconnect : connectBlock env 0 block state pindex view fJustCheck = .ok r) :
    blockInputsPass env pindex.nHeight
        (scriptVerifies env (connectFlags env block pindex.pprev)) view block.vtx = true ↔
      blockInputsPass env pindex.nHeight
        (kernelVerifies env (connectFlags env block pindex.pprev)) view block.vtx = true := by
  obtain ⟨_, s, cs, q, -, hpass, hset, -⟩ := (connectBlock_eq_ok hgen).mp hconnect
  have hruns := (hpass.scripts_iff hscripts).mp (exists_settled.mp ⟨q, hset⟩ rfl)
  rw [blockInputsPass_congr ?_ hruns]
  intro tx nIn txin o htxin hrun
  rw [kernelVerifies]
  cases hkernel : isKernel tx nIn with
  | true => rfl
  | false =>
    rw [checkRuns_eq htxin hkernel] at hrun
    rw [hrun]
    rfl

/-- A kernel spent with an empty `scriptSig`: the block is accepted, its script is not
satisfied. -/
theorem kernel_unverified : let block := stakeBlock [] 0 []
    (sampleEnv 101).blockHash block ≠ (sampleEnv 101).consensus.hashGenesisBlock ∧
      scriptChecksEnabled (sampleEnv 101) (samplePlace 101) = true ∧
      accepts (checkBlock (sampleEnv 101) block {} true true) = true ∧
      accepts (connectBlock (sampleEnv 101) 0 block {} (samplePlace 101) (sampleView 101)
        false) = true ∧
      blockInputsPass (sampleEnv 101) 101
        (scriptVerifies (sampleEnv 101) (connectFlags (sampleEnv 101) block (sampleChain 101)))
        (sampleView 101) block.vtx = false := by
  decide +kernel

/-- The same block with a signed kernel. -/
theorem spends_verified_signed : blockInputsPass (sampleEnv 101) 101 (scriptVerifies (sampleEnv 101)
        (connectFlags (sampleEnv 101) (stakeBlock [0x51] 0 []) (sampleChain 101)))
      (sampleView 101) (stakeBlock [0x51] 0 []).vtx = true := by
  obtain ⟨r, hconnect⟩ := accepts_iff.mp
    (show accepts (connectBlock (sampleEnv 101) 0 (stakeBlock [0x51] 0 []) {} (samplePlace 101)
      (sampleView 101) false) = true by decide +kernel)
  exact (spends_verified_iff (by decide +kernel) (by decide +kernel) hconnect).mpr
    (by decide +kernel)

/-! ## Threads -/

/-- **Threads.** With `n > 0` threads `ConnectBlock` decides as it does without, exactly when no
script check of the block fails, or none is asked for, or the block falls on other grounds. -/
theorem connectBlock_threads_agree_iff {n : Nat} (hn : 0 < n) :
    accepts (connectBlock env n block state pindex view fJustCheck) =
        accepts (connectBlock env 0 block state pindex view fJustCheck) ↔
      env.blockHash block = env.consensus.hashGenesisBlock ∨
        scriptChecksEnabled env pindex = false ∨
        blockInputsPass env pindex.nHeight (checkRuns env (connectFlags env block pindex.pprev))
          view block.vtx = true ∨
        ¬ ∃ s cs, PassesButScripts env block state pindex view fJustCheck s cs := by
  by_cases hgen : env.blockHash block = env.consensus.hashGenesisBlock
  · -- Genesis never reaches a script.
    simp [connectBlock, hgen]
  have haccepts : ∀ n, accepts (connectBlock env n block state pindex view fJustCheck) = true ↔
      ∃ s cs, PassesButScripts env block state pindex view fJustCheck s cs ∧
        (n = 0 → ∀ c ∈ cs, c.run env = .ok ()) := by
    intro n
    rw [accepts_iff]
    constructor
    · rintro ⟨r, hr⟩
      obtain ⟨_, s, cs, q, -, hpass, hset, -⟩ := (connectBlock_eq_ok hgen).mp hr
      exact ⟨s, cs, hpass, fun hn => exists_settled.mp ⟨q, hset⟩ (by rw [hn]; rfl)⟩
    · rintro ⟨s, cs, hpass, hall⟩
      obtain ⟨proof, hproof⟩ := hpass.stake
      obtain ⟨q, hset⟩ : ∃ q, Settled env (n ≠ 0) cs [] q :=
        exists_settled.mpr fun hn => hall (by simpa using hn)
      exact ⟨_, (connectBlock_eq_ok hgen).mpr ⟨proof, s, cs, q, hproof, hpass, hset, rfl⟩⟩
  rw [Bool.eq_iff_iff, haccepts n, haccepts 0]
  simp only [hn.ne', false_implies, and_true, true_implies]
  by_cases hpass : ∃ s cs, PassesButScripts env block state pindex view fJustCheck s cs
  · obtain ⟨s, cs, hpass⟩ := hpass
    have hex : ∃ s cs, PassesButScripts env block state pindex view fJustCheck s cs :=
      ⟨s, cs, hpass⟩
    simp only [hex, not_true_eq_false, or_false, hgen, false_or, true_iff]
    cases hscripts : scriptChecksEnabled env pindex with
    | false =>
      -- Nothing is queued and nothing is run.
      have hnil := hpass.run.scripts_nil hscripts
      refine iff_of_true ⟨s, cs, hpass, ?_⟩ (.inl rfl)
      simp [hnil]
    | true =>
      rw [← hpass.scripts_iff hscripts]
      simp only [Bool.true_eq_false, false_or]
      constructor
      · rintro ⟨s', cs', hpass', hall⟩
        exact (hpass.scripts_iff hscripts).mpr ((hpass'.scripts_iff hscripts).mp hall)
      · exact fun hall => ⟨s, cs, hpass, hall⟩
  · refine iff_of_true (iff_of_false hpass ?_) (.inr (.inr (.inr hpass)))
    rintro ⟨s, cs, h, -⟩
    exact hpass ⟨s, cs, h⟩

/-- A proof-of-stake block at height 101 with a payment. -/
def paymentBlock (scriptSig : CScript) : CBlock :=
  sampleBlock 101 1532376016 0x1e0fffff [1] [sampleCoinbase 101 1532376016 0 [],
    sampleStake 0 1532376016 [0x51] (1012 * COIN),
    samplePayment 1 1532376016 scriptSig (1000 * COIN)]

/-- A payment nobody signed: accepted with four threads, rejected without. -/
theorem threads_skip_scripts :
    accepts (connectBlock (sampleEnv 101) 4 (paymentBlock []) {} (samplePlace 101)
        (sampleView 101) false) = true ∧
      accepts (connectBlock (sampleEnv 101) 0 (paymentBlock []) {} (samplePlace 101)
        (sampleView 101) false) = false := by
  decide +kernel

/-- The signed payment is accepted either way. -/
theorem threads_agree_signed :
    accepts (connectBlock (sampleEnv 101) 4 (paymentBlock [0x51]) {} (samplePlace 101)
        (sampleView 101) false) =
      accepts (connectBlock (sampleEnv 101) 0 (paymentBlock [0x51]) {} (samplePlace 101)
        (sampleView 101) false) :=
  (connectBlock_threads_agree_iff (by decide)).mpr (.inr (.inr (.inl (by decide +kernel))))

end

end Chratos
