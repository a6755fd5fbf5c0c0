import Mathlib.Tactic.Linarith
import Mathlib.Data.Int.Init

/-!
# Chratos — amounts and 64-bit arithmetic (`amount.h`)

`CAmount` is a signed 64-bit integer. Amounts are modelled as `Int`, and `int64` is the
wrap-around applied where the code computes one. A value inside the money range, and the
sum of any two such values, is far from the wrap, so most of the arithmetic the consensus
checks guard is exact; the lemmas below are what says so.
-/

namespace Chratos

def COIN : Int := 100000000

def CENT : Int := 1000000

/-- No amount larger than this is valid. -/
def MAX_MONEY : Int := 31557600 * COIN

def moneyRange (nValue : Int) : Bool := 0 ≤ nValue && nValue ≤ MAX_MONEY

/-- The value a 64-bit signed register holds after an operation whose exact result is `x`. -/
def int64 (x : Int) : Int := Int.bmod x (2 ^ 64)

/-- A number in the range of the code's `int`. -/
def IsInt32 (n : Int) : Prop := -2 ^ 31 ≤ n ∧ n < 2 ^ 31

/-- A number in the range of `int64_t`. -/
def IsInt64 (n : Int) : Prop := -2 ^ 63 ≤ n ∧ n < 2 ^ 63

instance (n : Int) : Decidable (IsInt32 n) := inferInstanceAs (Decidable (_ ∧ _))

instance (n : Int) : Decidable (IsInt64 n) := inferInstanceAs (Decidable (_ ∧ _))

/-! ## The money range -/

theorem max_money_eq : MAX_MONEY = 3155760000000000 := rfl

variable {x y : Int}

theorem moneyRange_iff : moneyRange x = true ↔ 0 ≤ x ∧ x ≤ MAX_MONEY := by
  simp [moneyRange]

@[simp] theorem moneyRange_zero : moneyRange 0 = true := rfl

/-! ## Wrap-around -/

theorem int64_eq_self (hlo : -2 ^ 63 ≤ x) (hhi : x < 2 ^ 63) : int64 x = x :=
  Int.bmod_eq_of_le hlo hhi

/-- Wrapping never makes a non-negative quantity larger. -/
theorem int64_le_self (hx : 0 ≤ x) : int64 x ≤ x := by
  unfold int64
  rw [Int.bmod_def]
  split <;> omega

theorem int64_lt (x : Int) : int64 x < 2 ^ 63 :=
  Int.bmod_lt (by decide)

theorem neg_le_int64 (x : Int) : -2 ^ 63 ≤ int64 x :=
  Int.le_bmod (by decide)

@[simp] theorem int64_int64 (x : Int) : int64 (int64 x) = int64 x :=
  int64_eq_self (neg_le_int64 x) (int64_lt x)

/-- Accumulating in a register is accumulating exactly and wrapping at the end. -/
@[simp] theorem int64_int64_add (x y : Int) : int64 (int64 x + y) = int64 (x + y) := by
  exact Int.bmod_add_bmod ..

@[simp] theorem int64_add_int64 (x y : Int) : int64 (x + int64 y) = int64 (x + y) := by
  rw [add_comm, int64_int64_add, add_comm]

/-- The sum of two amounts in the money range does not wrap. -/
theorem int64_add_of_moneyRange (hx : moneyRange x = true) (hy : moneyRange y = true) :
    int64 (x + y) = x + y := by
  rw [moneyRange_iff, max_money_eq] at hx hy
  exact int64_eq_self (by omega) (by omega)

/-- Nor does their difference. -/
theorem int64_sub_of_moneyRange (hx : moneyRange x = true) (hy : moneyRange y = true) :
    int64 (x - y) = x - y := by
  rw [moneyRange_iff, max_money_eq] at hx hy
  exact int64_eq_self (by omega) (by omega)

end Chratos
