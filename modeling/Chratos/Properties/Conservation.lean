import Chratos.Consensus.ConnectBlock
import Chratos.Consensus.ContextualCheckBlock

/-!
# Chratos — what an accepted block may create

Three functions share the work of keeping a block from creating money. `CheckTxInputs`
compares value in and value out of every transaction but coinstakes, `ConnectBlock` compares
the coinbase or the coinstake with the schedule and the fees, and `ContextualCheckBlock`
forbids the coinbase of a proof-of-stake block to pay. Added up over a run of the loop they
account for every output (`BlockRun.balance`), and two gaps are left.

* In a proof-of-stake block the coinbase may pay anything if its free text is a JSON array:
  `proofOfStake_conserves`.
* In a proof-of-work block a transaction of coinstake shape past the second place is compared
  with nothing: `proofOfWork_conserves`.
-/

namespace Chratos

open Outcome List CTransaction CBlock

variable {nHeight : Nat} {tx : CTransaction} {env : Env} {txs : List CTransaction}
  {view : CCoinsView}

/-! ## Sums along a block

A quantity of a transaction that depends on the view it is connected to, summed over
transactions that are connected one after another. -/

section

variable (env : Env) (nHeight : Nat)

def sumAlong (f : CCoinsView → CTransaction → Int) : CCoinsView → List CTransaction → Int
  | _, [] => 0
  | view, tx :: txs =>
    f view tx + match updateCoins (env.txHash tx) tx view nHeight with
      | .ok (view', _) => sumAlong f view' txs
      | .error _ => 0

variable (view : CCoinsView) (tx : CTransaction)

/-- What `GetValueIn` makes of a transaction's inputs. -/
def spentValue : Int :=
  ((getValueIn env view tx).toOption).getD 0

/-- The fee of a transaction that is not generated. -/
def feeOf : Int :=
  if tx.isCoinBase || tx.isCoinStake then 0 else spentValue env view tx - tx.valueOut

/-- What a coinstake pays out beyond its inputs. -/
def stakeGain : Int :=
  if tx.isCoinStake then tx.valueOut - spentValue env view tx else 0

variable (block : CBlock)

/-- The value of all inputs of a block, coinstakes and dividends included. -/
def blockValueIn : Int :=
  sumAlong env nHeight (spentValue env) view block.vtx

/-- The value of all outputs of a block, the coinbase included. -/
def blockValueOut : Int := (block.vtx.map valueOut).sum

def blockFees : Int :=
  sumAlong env nHeight (feeOf env) view block.vtx

/-- What all transactions of coinstake shape pay out beyond their inputs. -/
def blockStakeGain : Int :=
  sumAlong env nHeight (stakeGain env) view block.vtx

def coinbaseOut : Int := (block.vtx.head?.map valueOut).getD 0

def coinbaseTextIsArray : Bool :=
  block.vtx.head?.any fun coinbase => UniValue.readsArray coinbase.strDZeel

end

section

variable {f : CCoinsView → CTransaction → Int}

theorem sumAlong_cons {view' : CCoinsView} {undo : CTxUndo}
    (h : updateCoins (env.txHash tx) tx view nHeight = .ok (view', undo)) :
    sumAlong env nHeight f view (tx :: txs) = f view tx + sumAlong env nHeight f view' txs := by
  rw [sumAlong, h]

theorem sumAlong_eq_zero (h : ∀ view, ∀ tx ∈ txs, f view tx = 0) :
    sumAlong env nHeight f view txs = 0 := by
  induction txs generalizing view with
  | nil => rfl
  | cons tx txs ih =>
    rw [sumAlong, h view tx (by simp), zero_add]
    split
    · exact ih fun view tx htx => h view tx (by simp [htx])
    · rfl

end

/-! ## One transaction of the loop -/

section

variable {block : CBlock} {state : CValidationState} {pindex : BlockPlace}
  {s s' : ConnectState} {cs : List CScriptCheck}
  {txi : CTransaction × Nat} {nSpendHeight : Nat} {fJustCheck : Bool}

/-- The tally of a coinbase changes nothing. -/
theorem TxEffect.tally_coinBase (h : TxEffect env block state pindex txi s s')
    (hcb : txi.1.isCoinBase = true) : s'.nFees = s.nFees ∧ s'.nStakeReward = s.nStakeReward := by
  have htally := h.tally
  rw [tallyTx, if_pos hcb] at htally
  injection htally with htally
  simp only [Prod.mk.injEq] at htally
  exact ⟨htally.1.symm, htally.2.1.symm⟩

theorem spentValue_coinBase (hcb : tx.isCoinBase = true) : spentValue env view tx = 0 := by
  rw [spentValue, getValueIn, if_pos hcb]
  rfl

/-- The inputs of a transaction that has passed `CheckTxInputs` are worth their exact sum. -/
theorem CheckedInputs.spentValue_eq (h : CheckedInputs env view nSpendHeight tx) :
    spentValue env view tx = valueIn env view tx := by
  rw [spentValue, h.getValueIn_eq]
  rfl

/-- The tally of a transaction with inputs: a fee that is not negative, or a stake reward. -/
theorem TxEffect.tally_spending (h : TxEffect env block state pindex txi s s')
    (hcb : txi.1.isCoinBase = false) (hin : CheckedInputs env s.view nSpendHeight txi.1) :
    0 ≤ feeOf env s.view txi.1 ∧ (txi.1.isCoinStake = false →
        s'.nFees = int64 (s.nFees + feeOf env s.view txi.1) ∧ s'.nStakeReward = s.nStakeReward) ∧
      (txi.1.isCoinStake = true →
        s'.nFees = s.nFees ∧ s'.nStakeReward = stakeGain env s.view txi.1) := by
  have htally := h.tally
  rw [tallyTx, if_neg (by simp [hcb])] at htally
  simp only [bind_eq_ok, orThrow_eq_ok, hin.getValueIn_eq, Except.ok.injEq, exists_eq_left'] at htally
  obtain ⟨out, hout, htally⟩ := htally
  obtain ⟨rfl, houtr, -⟩ := getValueOut_eq_some hout
  have hspent := hin.spentValue_eq
  cases hcs : txi.1.isCoinStake with
  | true =>
    rw [if_pos hcs] at htally
    injection htally with htally
    simp only [Prod.mk.injEq] at htally
    refine ⟨by simp [feeOf, hcs], fun hfalse => Bool.noConfusion hfalse, fun _ => ⟨htally.1.symm, ?_⟩⟩
    rw [← htally.2.1, int64_sub_of_moneyRange houtr hin.range, stakeGain, if_pos hcs, hspent]
  | false =>
    rw [if_neg (by simp [hcs])] at htally
    injection htally with htally
    simp only [Prod.mk.injEq] at htally
    have hfee : feeOf env s.view txi.1 = valueIn env s.view txi.1 - txi.1.valueOut := by
      simp [feeOf, hcb, hcs, hspent]
    refine ⟨?_, fun _ => ⟨by rw [hfee, htally.1], htally.2.1.symm⟩, fun hfalse =>
      Bool.noConfusion hfalse⟩
    have := hin.covers hcs
    omega

/-! ## The whole loop -/

section

variable {txs : List (CTransaction × Nat)} (hrun : BlockRun env block state pindex txs s s' cs)
  (hcb : ∀ txi ∈ txs, txi.1.isCoinBase = false)
include hrun hcb

/-- **Every output is accounted for.** Over transactions that are not coinbases, what comes out
is what goes in, less the fees, plus what coinstakes gain; the fees are not negative and the
register holds their sum. -/
theorem BlockRun.balance (hs : int64 s.nFees = s.nFees) : ((txs.map (·.1)).map valueOut).sum =
      sumAlong env pindex.nHeight (spentValue env) s.view (txs.map (·.1)) -
        sumAlong env pindex.nHeight (feeOf env) s.view (txs.map (·.1)) +
        sumAlong env pindex.nHeight (stakeGain env) s.view (txs.map (·.1)) ∧
    0 ≤ sumAlong env pindex.nHeight (feeOf env) s.view (txs.map (·.1)) ∧
    s'.nFees = int64 (s.nFees + sumAlong env pindex.nHeight (feeOf env) s.view (txs.map (·.1))) := by
  induction hrun with
  | nil s => simp [sumAlong, hs]
  | @cons txi txs s u s' cs cs' hin heff _ ih =>
    have hcb1 : txi.1.isCoinBase = false := hcb txi (by simp)
    obtain ⟨_, -, hchecked⟩ := hin.checkedInputs hcb1
    obtain ⟨hfee0, hnormal, hstake⟩ := heff.tally_spending hcb1 hchecked
    obtain ⟨undo, hup, -⟩ := heff.update
    -- The register after this transaction, for both kinds at once.
    have hreg : u.nFees = int64 (s.nFees + feeOf env s.view txi.1) := by
      cases hcs : txi.1.isCoinStake with
      | true =>
        rw [(hstake hcs).1]
        simp [feeOf, hcs, hs]
      | false => exact (hnormal hcs).1
    have hu : int64 u.nFees = u.nFees := by
      rw [hreg]
      exact int64_eq_self (neg_le_int64 _) (int64_lt _)
    obtain ⟨hout, hnn, hfees⟩ := ih (fun x hx => hcb x (by simp [hx])) hu
    simp only [map_cons, sum_cons, sumAlong_cons hup]
    refine ⟨?_, by omega, ?_⟩
    · have hone : txi.1.valueOut = spentValue env s.view txi.1 - feeOf env s.view txi.1 +
          stakeGain env s.view txi.1 := by
        cases hcs : txi.1.isCoinStake <;> simp [feeOf, stakeGain, hcb1, hcs]
      omega
    · rw [hfees, hreg, int64_int64_add, add_assoc]

/-- Where there are no coinstakes, the reward register stays as it is. -/
theorem BlockRun.nStakeReward_eq
    (hcs : ∀ txi ∈ txs, txi.1.isCoinStake = false) : s'.nStakeReward = s.nStakeReward := by
  induction hrun with
  | nil s => rfl
  | @cons txi txs s u s' cs cs' hin heff _ ih =>
    have hcb1 : txi.1.isCoinBase = false := hcb txi (by simp)
    obtain ⟨_, -, hchecked⟩ := hin.checkedInputs hcb1
    obtain ⟨-, hnormal, -⟩ := heff.tally_spending hcb1 hchecked
    have hrest := ih (fun x hx => hcb x (by simp [hx])) (fun x hx => hcs x (by simp [hx]))
    rw [hrest, (hnormal (hcs txi (by simp))).2]

end

theorem sumAlong_stakeGain_eq_zero
    (h : ∀ tx ∈ txs, tx.isCoinStake = false) : sumAlong env nHeight (stakeGain env) view txs = 0 :=
  sumAlong_eq_zero fun view tx htx => by simp [stakeGain, h tx htx]

theorem PassesButScripts.balance (hblock : CheckedBlock block)
    (hpass : PassesButScripts env block state pindex view fJustCheck s cs) :
    blockValueOut block = blockValueIn env pindex.nHeight view block + coinbaseOut block -
        blockFees env pindex.nHeight view block + blockStakeGain env pindex.nHeight view block ∧
      0 ≤ blockFees env pindex.nHeight view block ∧
      s.nFees = int64 (blockFees env pindex.nHeight view block) := by
  obtain ⟨coinbase, rest, hvtx, hcb, hrest⟩ := hblock.shape
  have hrun := hpass.run
  rw [hvtx, zipIdx_cons] at hrun
  cases hrun with
  | @cons _ _ _ u _ _ _ hin heff hrun =>
    obtain ⟨undo, hup, -⟩ := heff.update
    have htally := heff.tally_coinBase hcb
    have hu : u.nFees = 0 := htally.1
    have hcs : coinbase.isCoinStake = false := not_isCoinStake_of_isCoinBase hcb
    obtain ⟨hout, hnn, hfees⟩ := hrun.balance
      (fun txi htxi => hrest txi.1 (fst_mem_of_mem_zipIdx htxi)) (by rw [hu]; rfl)
    rw [zipIdx_map_fst] at hout hnn hfees
    have hfee : feeOf env view coinbase = 0 := by simp [feeOf, hcb]
    have hgain : stakeGain env view coinbase = 0 := by simp [stakeGain, hcs]
    have hspent : spentValue env view coinbase = 0 := spentValue_coinBase hcb
    have hup' : updateCoins (env.txHash coinbase) coinbase view pindex.nHeight =
        .ok (u.view, undo) := hup
    simp only [blockValueOut, blockValueIn, blockFees, blockStakeGain, coinbaseOut, hvtx,
      map_cons, sum_cons, head?_cons, Option.map_some, Option.getD_some,
      sumAlong_cons hup', hfee, hgain, hspent, zero_add]
    refine ⟨by omega, hnn, ?_⟩
    rw [hfees, hu, zero_add]

/-- In a proof-of-stake block the reward register ends with the gain of its one coinstake. -/
theorem PassesButScripts.nStakeReward_eq (hblock : CheckedBlock block)
    (hpos : block.isProofOfStake = true)
    (hpass : PassesButScripts env block state pindex view fJustCheck s cs) :
    s.nStakeReward = blockStakeGain env pindex.nHeight view block := by
  obtain ⟨coinbase, rest, hvtx, hcb, hrest⟩ := hblock.shape
  have hstake := hblock.stake hpos
  cases rest with
  | nil => simp [isProofOfStake, hvtx] at hpos
  | cons tx rest =>
    have htx : tx.isCoinStake = true := by simpa [isProofOfStake, hvtx] using hpos
    have hcs : coinbase.isCoinStake = false := not_isCoinStake_of_isCoinBase hcb
    have htxcb : tx.isCoinBase = false := hrest tx (by simp)
    have hrun := hpass.run
    rw [hvtx, zipIdx_cons, zipIdx_cons] at hrun
    cases hrun with
    | @cons _ _ _ u₀ _ _ _ _ heff₀ hrun =>
    cases hrun with
    | @cons _ _ _ u₁ _ _ _ hin heff₁ hrun =>
      obtain ⟨undo₀, hup₀, -⟩ := heff₀.update
      obtain ⟨undo₁, hup₁, -⟩ := heff₁.update
      obtain ⟨_, -, hchecked⟩ := hin.checkedInputs htxcb
      obtain ⟨-, -, htally⟩ := heff₁.tally_spending htxcb hchecked
      have hmem : ∀ txi ∈ rest.zipIdx (0 + 1 + 1), txi.1 ∈ rest :=
        fun txi htxi => fst_mem_of_mem_zipIdx htxi
      have hnone : ∀ tx ∈ rest, tx.isCoinStake = false := by simpa [hvtx] using hstake
      have hrew := hrun.nStakeReward_eq
        (fun txi htxi => hrest txi.1 (mem_cons_of_mem _ (hmem txi htxi)))
        (fun txi htxi => hnone txi.1 (hmem txi htxi))
      have hup₀' : updateCoins (env.txHash coinbase) coinbase view pindex.nHeight =
          .ok (u₀.view, undo₀) := hup₀
      have hup₁' : updateCoins (env.txHash tx) tx u₀.view pindex.nHeight =
          .ok (u₁.view, undo₁) := hup₁
      have hgain₀ : stakeGain env view coinbase = 0 := by simp [stakeGain, hcs]
      rw [hrew, (htally htx).2, blockStakeGain, hvtx, sumAlong_cons hup₀', sumAlong_cons hup₁',
        sumAlong_stakeGain_eq_zero hnone, hgain₀]
      simp

/-! ## Proof of stake -/

/-- A checked transaction none of whose outputs is positive pays nothing. -/
theorem CTransaction.valueOut_nonpos (h : ∀ o ∈ tx.vout, o.nValue ≤ 0) : tx.valueOut ≤ 0 := by
  have hsum : (tx.vout.map CTxOut.nValue).sum ≤ (tx.vout.map CTxOut.nValue).length • 0 :=
    sum_le_card_nsmul _ 0 (by simpa using h)
  simpa [valueOut] using hsum

variable {fChecked : Bool} {n : Nat} {r : Connected}

/-- The books of an accepted block, with the state at the end of the loop. -/
structure BlockBooks (env : Env) (nHeight : Nat) (view : CCoinsView) (block : CBlock)
    (s : ConnectState) : Prop where
  balance : blockValueOut block = blockValueIn env nHeight view block + coinbaseOut block -
    blockFees env nHeight view block + blockStakeGain env nHeight view block
  fees_nonneg : 0 ≤ blockFees env nHeight view block
  nFees_eq : s.nFees = int64 (blockFees env nHeight view block)
  nStakeReward_eq : block.isProofOfStake = true →
    s.nStakeReward = blockStakeGain env nHeight view block

variable (hgen : env.blockHash block ≠ env.consensus.hashGenesisBlock) (hblock : CheckedBlock block)
  (hconnect : connectBlock env n { block with fChecked := fChecked } state pindex view
    fJustCheck = .ok r)

section

include hgen hblock hconnect

/-- `CheckBlock` leaves its mark on the block, and `ConnectBlock` then repeats nothing: the books
do not depend on the mark. -/
theorem connectBlock_books_checked : ∃ s, checkReward env block state pindex.nHeight s = .ok () ∧
      BlockBooks env pindex.nHeight view block s := by
  have hgen' : env.blockHash { block with fChecked := fChecked } ≠
      env.consensus.hashGenesisBlock := hgen
  have hblock' : CheckedBlock { block with fChecked := fChecked } :=
    ⟨hblock.shape, hblock.stake, hblock.size_le, hblock.txs⟩
  obtain ⟨_, s, cs, _, hpass, -⟩ := connectBlock_spec hgen' hconnect
  obtain ⟨hbal, hnn, hfees⟩ := hpass.balance hblock'
  exact ⟨s, hpass.reward, hbal, hnn, hfees, hpass.nStakeReward_eq hblock'⟩

end

/-- What the reward check of a proof-of-stake block compares. -/
theorem checkReward_stake (hpos : block.isProofOfStake = true)
    (h : checkReward env block state nHeight s = .ok ()) :
    s.nStakeReward ≤ getProofOfStakeReward nHeight s.nFees := by
  rw [checkReward, if_pos hpos] at h
  simp only [bind_eq_ok] at h
  obtain ⟨tx, -, age, -, h⟩ := h
  cases age with
  | none => cases h
  | some age => simpa [rejectIf_eq_ok] using h

/-- And that of a proof-of-work block. -/
theorem checkReward_work (hpow : block.isProofOfStake = false)
    (h : checkReward env block state nHeight s = .ok ()) :
    coinbaseOut block ≤ int64 (s.nFees + getBlockSubsidy nHeight) := by
  rw [checkReward, if_neg (by simp [hpow])] at h
  simp only [bind_eq_ok, orAssert_eq_ok, orThrow_eq_ok, rejectIf_eq_ok, decide_eq_false_iff_not,
    not_lt] at h
  obtain ⟨tx, hhead, out, hout, h⟩ := h
  obtain ⟨rfl, -⟩ := getValueOut_eq_some hout
  simpa [coinbaseOut, hhead] using h

/-! ## A chain to try blocks on

A chain of proof-of-work blocks of the main network with a block every 150 seconds, and a
transaction at height 1 that funds what is spent below. The hash is a polynomial one, keys accept
one signature, and scripts accept every non-empty `scriptSig`. -/

def sampleHash (bytes : List UInt8) : Uint256 :=
  BitVec.ofNat 256 (bytes.foldl (fun a b => (a * 257 + b.toNat + 1) % (2 ^ 61 - 1)) 7)

def sampleIndex (i : Nat) : CBlockIndex where
  hash := BitVec.ofNat 256 (1000 + i)
  nHeight := i
  nVersion := 1
  nTime := UInt32.ofNat (1532360945 + 150 * i)
  nBits := 0x1f00ffff
  fGeneratedStakeModifier := i % 4 = 2

section

variable (nHeight : Nat)

/-- The entries below height `nHeight`. -/
def sampleChain : PrevChain := (List.range nHeight).reverse.map sampleIndex

def samplePlace : BlockPlace := ⟨nHeight, some 5000, sampleChain nHeight⟩

def sampleKey : CScript := 0x21 :: List.replicate 33 0x02 ++ [OP_CHECKSIG]

def sampleFunding : CTransaction where
  nVersion := 1
  nTime := 1532361000
  vin := [⟨⟨5, 0⟩, [0x51], 0xffffffff⟩]
  vout := [⟨1000 * COIN, sampleKey⟩, ⟨1000 * COIN, sampleKey⟩]
  nLockTime := 0

def fundingHash : Uint256 := sampleFunding.getHash sampleHash

def sampleEnv : Env where
  consensus := .main
  hash256 := sampleHash
  hash9 := sampleHash
  verifyPubKey := fun _ _ vchSig => vchSig = [1]
  verifyScript := fun scriptSig _ _ _ _ _ _ =>
    if scriptSig = [] then .error "Operation not valid with the current stack size" else .ok ()
  mapBlockIndex := fun hash =>
    if 1000 ≤ hash.toNat ∧ hash.toNat < 1000 + nHeight then some (sampleIndex (hash.toNat - 1000))
    else none
  mapBlockIndexSize := nHeight
  activeHeight := nHeight - 1
  getTransaction := fun hash =>
    if hash = fundingHash then some (sampleFunding, (sampleIndex 1).hash) else none
  versionBitsActive := fun _ _ => false
  checkpointAncestor := fun _ => none
  totalWithDividend := fun nValue _ => some nValue
  fTestnet := false
  fAddressIndex := true
  fSpentIndex := true

def sampleView : CCoinsView where
  coins := fun txid => if txid = fundingHash then .fromTx sampleFunding 1 else {}
  hashBlock := BitVec.ofNat 256 (999 + nHeight)

def sampleCoinbase (nTime : UInt32) (nValue : Int) (strDZeel : List UInt8) : CTransaction where
  nVersion := 2
  nTime := nTime
  vin := [⟨⟨0, 0xffffffff⟩, pushHeight nHeight ++ [0], 0xffffffff⟩]
  vout := [⟨nValue, []⟩]
  nLockTime := 0
  strDZeel := strDZeel

section

variable (n nTime : UInt32) (scriptSig : CScript) (nValue : Int)

/-- A transaction of coinstake shape that spends output `n` of the funding transaction. -/
def sampleStake : CTransaction where
  nVersion := 1
  nTime := nTime
  vin := [⟨⟨fundingHash, n⟩, scriptSig, 0xffffffff⟩]
  vout := [⟨0, []⟩, ⟨nValue, sampleKey⟩]
  nLockTime := 0

/-- A plain payment out of output `n` of the funding transaction. -/
def samplePayment : CTransaction where
  nVersion := 1
  nTime := nTime
  vin := [⟨⟨fundingHash, n⟩, scriptSig, 0xffffffff⟩]
  vout := [⟨nValue, sampleKey⟩]
  nLockTime := 0

def sampleBlock (nBits : UInt32) (vchBlockSig : List UInt8) (vtx : List CTransaction) : CBlock where
  nVersion := 1
  hashPrevBlock := BitVec.ofNat 256 (999 + nHeight)
  hashMerkleRoot := (computeMerkleRoot sampleHash (vtx.map (getHash sampleHash))).1
  nTime := nTime
  nBits := nBits
  nNonce := 0
  vtx := vtx
  vchBlockSig := vchBlockSig

end

end

/-- A proof-of-stake block at height 101 whose coinstake claims the whole reward. -/
def stakeBlock (scriptSig : CScript) (coinbasePays : Int) (strDZeel : List UInt8) : CBlock :=
  sampleBlock 101 1532376016 0x1e0fffff [1] [sampleCoinbase 101 1532376016 coinbasePays strDZeel,
    sampleStake 0 1532376016 scriptSig (1012 * COIN)]

/-- A proof-of-work block at height 100: coinbase, payment, and a stray coinstake. -/
def workBlock (strayPays : Int) : CBlock :=
  sampleBlock 100 1532376000 0x1f00ffff [] [sampleCoinbase 100 1532376000 (getBlockSubsidy 100) [],
    samplePayment 0 1532376000 [0x51] (1000 * COIN),
    sampleStake 1 1532376000 [0x51] strayPays]

section

include hgen hblock hconnect

/-- The reward check bounds what the coinstake gains, and nothing bounds the coinbase: whatever it
pays is created on top of the scheduled reward. -/
theorem proofOfStake_created_le (hpos : block.isProofOfStake = true) :
    blockValueOut block ≤ blockValueIn env pindex.nHeight view block +
      getProofOfStakeReward pindex.nHeight 0 + coinbaseOut block := by
  obtain ⟨s, hreward, hbooks⟩ := connectBlock_books_checked hgen hblock hconnect
  have hstake : blockStakeGain env pindex.nHeight view block ≤
      getProofOfStakeReward pindex.nHeight 0 + blockFees env pindex.nHeight view block := by
    have hle := checkReward_stake hpos hreward
    obtain ⟨hrew, hnn⟩ := getProofOfStakeReward_eq pindex.nHeight s.nFees
    rw [hbooks.nStakeReward_eq hpos, hrew, hbooks.nFees_eq, int64_add_int64] at hle
    exact hle.trans (int64_le_self (add_nonneg hnn hbooks.fees_nonneg))
  have hbal := hbooks.balance
  omega

end

/-- **What an accepted proof-of-stake block creates** is at most the scheduled reward, if the text
of the coinbase is no JSON array or the coinbase pays nothing. -/
theorem proofOfStake_conserves (hgen : env.blockHash block ≠ env.consensus.hashGenesisBlock)
    (hpos : block.isProofOfStake = true) (hfresh : block.fChecked = false)
    (hcheck : checkBlock env block state true true = .ok ())
    (hcontext : contextualCheckBlock env block state pindex.pprev = .ok ())
    (hconnect : connectBlock env n { block with fChecked := fChecked } state pindex view
      fJustCheck = .ok r)
    (hidle : coinbaseTextIsArray block = false ∨ coinbaseOut block ≤ 0) :
    blockValueOut block ≤
      blockValueIn env pindex.nHeight view block + getProofOfStakeReward pindex.nHeight 0 := by
  have hblock := checkBlock_spec hfresh hcheck
  have hcreated := proofOfStake_created_le hgen hblock hconnect hpos
  have hcb : coinbaseOut block ≤ 0 := by
    rcases hidle with htext | hcb
    · -- `ContextualCheckBlock` tests the outputs of a coinbase without an array
      obtain ⟨coinbase, rest, hvtx, -⟩ := hblock.shape
      rcases contextualCheckBlock_coinbase hvtx hpos hcontext with harr | hzero
      · simp [coinbaseTextIsArray, hvtx, harr] at htext
      · simpa [coinbaseOut, hvtx] using valueOut_nonpos hzero
    · exact hcb
  omega

/-- A coinbase with the text `[]` pays itself a million coins. -/
theorem proofOfStake_array_mints : let block := stakeBlock [0x51] (1000000 * COIN) [0x5b, 0x5d]
    block.isProofOfStake = true ∧
      (sampleEnv 101).blockHash block ≠ (sampleEnv 101).consensus.hashGenesisBlock ∧
      accepts (checkBlock (sampleEnv 101) block {} true true) = true ∧
      accepts (contextualCheckBlock (sampleEnv 101) block {} (sampleChain 101)) = true ∧
      accepts (connectBlock (sampleEnv 101) 0 { block with fChecked := true } {} (samplePlace 101)
        (sampleView 101) false) = true ∧
      ¬ blockValueOut block ≤
        blockValueIn (sampleEnv 101) 101 (sampleView 101) block + getProofOfStakeReward 101 0 := by
  decide +kernel

/-- The same block with an idle coinbase and no text creates what the schedule allows. -/
theorem proofOfStake_conserves_idle : blockValueOut (stakeBlock [0x51] 0 []) ≤
      blockValueIn (sampleEnv 101) 101 (sampleView 101) (stakeBlock [0x51] 0 []) +
        getProofOfStakeReward 101 0 := by
  obtain ⟨_, hcheck⟩ := accepts_iff.mp
    (show accepts (checkBlock (sampleEnv 101) (stakeBlock [0x51] 0 []) {} true true) = true by
      decide +kernel)
  obtain ⟨_, hcontext⟩ := accepts_iff.mp
    (show accepts (contextualCheckBlock (sampleEnv 101) (stakeBlock [0x51] 0 []) {}
      (samplePlace 101).pprev) = true by decide +kernel)
  obtain ⟨r, hconnect⟩ := accepts_iff.mp
    (show accepts (connectBlock (sampleEnv 101) 0 { stakeBlock [0x51] 0 [] with fChecked := true }
      {} (samplePlace 101) (sampleView 101) false) = true by decide +kernel)
  have hle := proofOfStake_conserves (by decide +kernel) (by decide +kernel) rfl hcheck hcontext
    hconnect (.inl (by decide +kernel))
  exact hle

/-! ## Proof of work -/

/-- Neither the coinbase nor the second transaction of a proof-of-work block is a coinstake. -/
theorem CheckedBlock.no_coinStake (hblock : CheckedBlock block)
    (hpow : block.isProofOfStake = false)
    (hdrop : ∀ tx ∈ block.vtx.drop 2, tx.isCoinStake = false) :
    ∀ tx ∈ block.vtx, tx.isCoinStake = false := by
  obtain ⟨coinbase, rest, hvtx, hcb, -⟩ := hblock.shape
  have hcs : coinbase.isCoinStake = false := not_isCoinStake_of_isCoinBase hcb
  cases rest with
  | nil => simpa [hvtx] using hcs
  | cons tx rest =>
    have htx : tx.isCoinStake = false := by simpa [isProofOfStake, hvtx] using hpow
    rw [hvtx] at hdrop ⊢
    exact forall_mem_cons.mpr ⟨hcs, forall_mem_cons.mpr ⟨htx, hdrop⟩⟩

/-- **What an accepted proof-of-work block creates** is at most the subsidy, if no transaction past
the second place has the shape of a coinstake or those that have it pay out no more than they spend,
taken together. -/
theorem proofOfWork_conserves (hgen : env.blockHash block ≠ env.consensus.hashGenesisBlock)
    (hpow : block.isProofOfWork = true) (hfresh : block.fChecked = false)
    (hcheck : checkBlock env block state true true = .ok ())
    (hconnect : connectBlock env n { block with fChecked := fChecked } state pindex view
      fJustCheck = .ok r)
    (hstrays : (∀ tx ∈ block.vtx.drop 2, tx.isCoinStake = false) ∨
      blockStakeGain env pindex.nHeight view block ≤ 0) :
    blockValueOut block ≤
      blockValueIn env pindex.nHeight view block + getBlockSubsidy pindex.nHeight := by
  have hwork : block.isProofOfStake = false := by simpa [isProofOfWork] using hpow
  have hblock := checkBlock_spec hfresh hcheck
  obtain ⟨s, hreward, hbooks⟩ := connectBlock_books_checked hgen hblock hconnect
  have hgain : blockStakeGain env pindex.nHeight view block ≤ 0 := by
    rcases hstrays with hdrop | hgain
    · exact (sumAlong_stakeGain_eq_zero (hblock.no_coinStake hwork hdrop)).le
    · exact hgain
  -- the coinbase has passed the reward check
  have hcb : coinbaseOut block ≤
      blockFees env pindex.nHeight view block + getBlockSubsidy pindex.nHeight := by
    have hle := checkReward_work hwork hreward
    rw [hbooks.nFees_eq, int64_int64_add] at hle
    exact hle.trans (int64_le_self (add_nonneg hbooks.fees_nonneg (getBlockSubsidy_nonneg _)))
  have hbal := hbooks.balance
  omega

/-- A stray coinstake turns a thousand coins into a million. -/
theorem proofOfWork_stray_mints : let block := workBlock (1000000 * COIN)
    block.isProofOfWork = true ∧
      (sampleEnv 100).blockHash block ≠ (sampleEnv 100).consensus.hashGenesisBlock ∧
      accepts (checkBlock (sampleEnv 100) block {} true true) = true ∧
      accepts (contextualCheckBlock (sampleEnv 100) block {} (sampleChain 100)) = true ∧
      accepts (connectBlock (sampleEnv 100) 0 { block with fChecked := true } {} (samplePlace 100)
        (sampleView 100) false) = true ∧
      ¬ blockValueOut block ≤
        blockValueIn (sampleEnv 100) 100 (sampleView 100) block + getBlockSubsidy 100 := by
  decide +kernel

/-- A stray coinstake that gains nothing is harmless. -/
theorem proofOfWork_conserves_harmless : blockValueOut (workBlock (1000 * COIN)) ≤
      blockValueIn (sampleEnv 100) 100 (sampleView 100) (workBlock (1000 * COIN)) +
        getBlockSubsidy 100 := by
  obtain ⟨_, hcheck⟩ := accepts_iff.mp
    (show accepts (checkBlock (sampleEnv 100) (workBlock (1000 * COIN)) {} true true) = true by
      decide +kernel)
  obtain ⟨r, hconnect⟩ := accepts_iff.mp (show accepts (connectBlock (sampleEnv 100) 0
      { workBlock (1000 * COIN) with fChecked := true } {} (samplePlace 100) (sampleView 100)
      false) = true by decide +kernel)
  have hle := proofOfWork_conserves (by decide +kernel) (by decide +kernel) rfl hcheck hconnect
    (.inr (by decide +kernel))
  exact hle

end

end Chratos
