import Mathlib.Algebra.BigOperators.Group.List.Basic
import Mathlib.Algebra.Order.BigOperators.Group.List
import Mathlib.Algebra.Order.Ring.Int

/-!
# Subset — the elements of a list that a vector of flags chooses
-/

namespace Subset

open List

variable {α : Type}

/-- The elements whose flag is set. -/
def chosen : List α → List Bool → List α
  | x :: xs, b :: bs => if b then x :: chosen xs bs else chosen xs bs
  | _, _ => []

theorem chosen_sublist (xs : List α) (bs : List Bool) : (chosen xs bs).Sublist xs := by
  induction xs generalizing bs with
  | nil => exact List.Sublist.refl []
  | cons x xs ih =>
    cases bs with
    | nil => exact nil_sublist _
    | cons b bs =>
      cases b with
      | true => exact (ih bs).cons_cons x
      | false => exact (ih bs).cons x

theorem chosen_replicate_true (xs : List α) : chosen xs (List.replicate xs.length true) = xs := by
  induction xs with
  | nil => rfl
  | cons x xs ih =>
    show x :: chosen xs (replicate xs.length true) = x :: xs
    rw [ih]

theorem chosen_replicate_false (xs : List α) : chosen xs (List.replicate xs.length false) = [] := by
  induction xs with
  | nil => rfl
  | cons x xs ih => exact ih

/-- The weight of what is chosen. -/
def chosenSum (w : α → Int) (xs : List α) (bs : List Bool) : Int := ((chosen xs bs).map w).sum

variable {w : α → Int} {xs : List α} {bs : List Bool}

/-- One more flag adds the weight of its element. -/
theorem chosenSum_set {i : Nat} {x : α} (hx : xs[i]? = some x) (hb : bs[i]? = some false) :
    chosenSum w xs (bs.set i true) = chosenSum w xs bs + w x := by
  induction xs generalizing bs i with
  | nil => cases hx
  | cons y xs ih =>
    cases bs with
    | nil => cases hb
    | cons b bs =>
      cases i with
      | zero =>
        obtain rfl : y = x := Option.some.inj hx
        obtain rfl : b = false := Option.some.inj hb
        simp [chosenSum, chosen, add_comm]
      | succ i =>
        have hrest := ih hx hb
        unfold chosenSum at hrest ⊢
        cases b with
        | true => simp [chosen, hrest, add_assoc]
        | false => simpa [chosen] using hrest

/-- A part of a list of weights that are not negative. -/
theorem sum_le_of_sublist {xs ys : List α} (hsub : xs.Sublist ys) (h : ∀ y ∈ ys, 0 ≤ w y) :
    (xs.map w).sum ≤ (ys.map w).sum := by
  apply (hsub.map w).sum_le_sum
  intro n hn
  obtain ⟨y, hy, rfl⟩ := mem_map.mp hn
  exact h y hy

theorem sum_nonneg_of_mem {xs : List α} (h : ∀ x ∈ xs, 0 ≤ w x) : 0 ≤ (xs.map w).sum := by
  have hle := sum_le_of_sublist (nil_sublist xs) h
  simpa using hle

/-- One element weighs no more than the whole. -/
theorem le_sum_of_mem {x : α} (hx : x ∈ xs) (h : ∀ x ∈ xs, 0 ≤ w x) : w x ≤ (xs.map w).sum := by
  have hle := sum_le_of_sublist (singleton_sublist.mpr hx) h
  simpa using hle

end Subset
