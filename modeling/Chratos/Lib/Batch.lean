import Mathlib.Logic.Function.Basic
import Mathlib.Data.List.Induction

/-!
# Batch — writes to a table

A table is a partial function. A batch is a list of rows applied in order, so that of several
rows for one key the last one stands; what a row leaves at its key is given by a function, and
may be nothing. What a batch does is said once for the keys it has rows for
(`apply_of_mem`) and once for the others (`apply_of_notMem`).
-/

namespace Batch

open Function List

variable {κ υ : Type} [DecidableEq κ]

section

variable (entry : υ → Option υ) (table : κ → Option υ) (rows : List (κ × υ))

/-- Rows applied one after another; `entry` is what a row leaves behind. -/
def apply : κ → Option υ :=
  rows.foldl (fun t row => Function.update t row.1 (entry row.2)) table

theorem apply_append (rows' : List (κ × υ)) :
    apply entry table (rows ++ rows') = apply entry (apply entry table rows) rows' :=
  foldl_append

end

variable {table : κ → Option υ} {rows : List (κ × υ)} {entry : υ → Option υ}

/-- Keys without a row keep what they have. -/
theorem apply_of_notMem {key : κ} (h : key ∉ rows.map Prod.fst) :
    apply entry table rows key = table key := by
  induction rows generalizing table with
  | nil => rfl
  | cons row rows ih =>
    rw [map_cons, mem_cons, not_or] at h
    show apply entry (update table row.1 (entry row.2)) rows key = table key
    rw [ih h.2, update_of_ne h.1]

/-- A key with rows has what one of them leaves. -/
theorem apply_of_mem {key : κ} (h : key ∈ rows.map Prod.fst) :
    ∃ row ∈ rows, row.1 = key ∧ apply entry table rows key = entry row.2 := by
  induction rows using reverseRecOn with
  | nil => cases h
  | append_singleton rows row ih =>
    rw [apply_append]
    by_cases hkey : key = row.1
    · refine ⟨row, by simp, hkey.symm, ?_⟩
      show update (apply entry table rows) row.1 (entry row.2) key = entry row.2
      rw [hkey, update_self]
    · rw [map_append, mem_append] at h
      have hmem : key ∈ rows.map Prod.fst := h.resolve_right fun h' => hkey (by simpa using h')
      obtain ⟨row', hrow', hkey', happly⟩ := ih hmem
      refine ⟨row', mem_append_left _ hrow', hkey', ?_⟩
      show update (apply entry table rows) row.1 (entry row.2) key = entry row'.2
      rw [update_of_ne hkey, happly]

/-- A batch followed by one that erases the same keys gives the table back exactly when it had
none of these keys. -/
theorem apply_erase_eq_iff {entry' : υ → Option υ} {rows' : List (κ × υ)}
    (hkeys : ∀ key, key ∈ rows'.map Prod.fst ↔ key ∈ rows.map Prod.fst)
    (hnone : ∀ row ∈ rows', entry' row.2 = none) :
    apply entry' (apply entry table rows) rows' = table ↔
      ∀ key ∈ rows.map Prod.fst, table key = none := by
  have herased : ∀ key ∈ rows.map Prod.fst, apply entry' (apply entry table rows) rows' key = none := by
    intro key hkey
    obtain ⟨row, hrow, -, happly⟩ := apply_of_mem ((hkeys key).mpr hkey)
    rw [happly, hnone row hrow]
  constructor
  · intro h key hkey
    rw [← h, herased key hkey]
  · intro h
    funext key
    by_cases hkey : key ∈ rows.map Prod.fst
    · rw [herased key hkey, h key hkey]
    · rw [apply_of_notMem fun h' => hkey ((hkeys key).mp h'), apply_of_notMem hkey]

end Batch
