import Chratos.Primitives.Encoding

/-!
# Chratos — fee rates and dust (`amount.cpp`, `primitives/transaction.h`, `policy/policy.cpp`)

A `CFeeRate` counts satoshis per 1000 bytes. All its arithmetic is that of 64-bit amounts, and division
rounds towards zero. `getFeePerK` is written as the source has it: the fee for 10000 bytes.
-/

namespace Chratos

structure CFeeRate where
  nSatoshisPerK : Int
  deriving DecidableEq, Repr

namespace CFeeRate

/-- The constructor from a fee that was paid and a size. -/
def ofFeePaid (nFeePaid : Int) (nBytes : Nat) : CFeeRate :=
  if 0 < nBytes then ⟨(int64 (nFeePaid * 1000)).tdiv nBytes⟩ else ⟨0⟩

def getFee (rate : CFeeRate) (nBytes : Nat) : Int :=
  let nFee := (int64 (rate.nSatoshisPerK * nBytes)).tdiv 1000
  if nFee = 0 ∧ nBytes ≠ 0 then
    if rate.nSatoshisPerK > 0 then 1
    else if rate.nSatoshisPerK < 0 then -1
    else nFee
  else nFee

def getFeePerK (rate : CFeeRate) : Int := rate.getFee 10000

theorem getFeePerK_eq {rate : CFeeRate} (hlo : -2 ^ 49 < rate.nSatoshisPerK)
    (hhi : rate.nSatoshisPerK < 2 ^ 49) : rate.getFeePerK = 10 * rate.nSatoshisPerK := by
  have hfee : (rate.nSatoshisPerK * (10000 : Nat)).tdiv 1000 = 10 * rate.nSatoshisPerK := by
    rw [show rate.nSatoshisPerK * (10000 : Nat) = 10 * rate.nSatoshisPerK * 1000 by omega]
    exact Int.mul_tdiv_cancel _ (by decide)
  unfold getFeePerK getFee
  rw [int64_eq_self (by omega) (by omega), hfee]
  simp only []
  split_ifs <;> omega

/-- `operator+=`. -/
def add (a b : CFeeRate) : CFeeRate := ⟨int64 (a.nSatoshisPerK + b.nSatoshisPerK)⟩

end CFeeRate

/-! ## Dust -/

namespace CTxOut

section

variable (minRelayTxFee : CFeeRate) (o : CTxOut)

def getDustThreshold : Int :=
  if isUnspendable o.scriptPubKey then 0
  else
    let nSize := o.serialize.length
    let nSize := if (isWitnessProgram o.scriptPubKey).isSome then nSize + (32 + 4 + 1 + 107 / 4 + 4)
      else nSize + (32 + 4 + 1 + 107 + 4)
    int64 (3 * minRelayTxFee.getFee nSize)

def isDust : Bool := o.nValue < o.getDustThreshold minRelayTxFee

/-- The threshold goes by the script, not by the amount. -/
theorem getDustThreshold_nValue (nValue : Int) :
    ({ o with nValue := nValue } : CTxOut).getDustThreshold minRelayTxFee =
      o.getDustThreshold minRelayTxFee := by
  have hsize : ({ o with nValue := nValue } : CTxOut).serialize.length = o.serialize.length := by
    simp [serialize]
  unfold getDustThreshold
  simp only [hsize]

end

end CTxOut

/-! ## The size that is paid for -/

/-- `GetVirtualTransactionSize`, without a count of signature operations. -/
def getVirtualTransactionSize (tx : CTransaction) : Nat := (txWeight tx + 3) / 4

end Chratos
