import Mathlib.Data.List.Forall2
import Mathlib.Data.List.NodupEquivFin

/-!
# OrderedMatching — places for the elements of a list, in order

Every element of one list is given a place in another so that later elements get later places and a
relation holds between an element and what stands at its place. `List.SublistForall₂` is the form for
inductions; a greedy search looks at one place after the other and takes each one it can.
-/

namespace OrderedMatching

open List

variable {α β : Type} {R : α → β → Prop} {a : α} {b : β} {as : List α} {bs : List β}

/-! ## Greedy choices

What the greedy search relies on: a place that can be taken may be taken, a place that cannot be taken
is of no use (`cons_cons_iff_of_rel`, `cons_cons_iff_of_not_rel`).
-/

theorem sublistForall₂_tail (h : List.SublistForall₂ R (a :: as) bs) : List.SublistForall₂ R as bs := by
  induction bs with
  | nil => exact nomatch h
  | cons b bs ih =>
    cases h with
    | cons _ htail => exact .cons_right htail
    | cons_right hlater => exact .cons_right (ih hlater)

/-- A place that can be taken may be taken: whoever gets a later one can have this one instead. -/
theorem cons_cons_iff_of_rel (hab : R a b) :
    List.SublistForall₂ R (a :: as) (b :: bs) ↔ List.SublistForall₂ R as bs := by
  constructor
  · intro h
    cases h with
    | cons _ htail => exact htail
    | cons_right hlater => exact sublistForall₂_tail hlater
  · exact .cons hab

theorem cons_cons_iff_of_not_rel (hab : ¬ R a b) :
    List.SublistForall₂ R (a :: as) (b :: bs) ↔ List.SublistForall₂ R (a :: as) bs := by
  constructor
  · intro h
    cases h with
    | cons hr _ => exact absurd hr hab
    | cons_right hlater => exact hlater
  · exact .cons_right

theorem length_le (h : List.SublistForall₂ R as bs) : as.length ≤ bs.length := by
  obtain ⟨cs, hforall, hsub⟩ := sublistForall₂_iff.mp h
  rw [hforall.length_eq]
  exact hsub.length_le

/-! ## Increasing maps

The two forms agree (`OrderedMatch.sublistForall₂_iff`). Both lists may be read backwards
(`OrderedMatch.reverse_iff`).
-/

/-- An increasing map of positions that respects the relation. -/
def OrderedMatch (R : α → β → Prop) (as : List α) (bs : List β) : Prop :=
  ∃ f : Fin as.length → Fin bs.length, StrictMono f ∧ ∀ i, R (as.get i) (bs.get (f i))

theorem OrderedMatch.sublistForall₂_iff : List.SublistForall₂ R as bs ↔ OrderedMatch R as bs := by
  rw [List.sublistForall₂_iff]
  constructor
  · rintro ⟨cs, hforall, hsub⟩
    obtain ⟨hlen, hget⟩ := forall₂_iff_get.mp hforall
    obtain ⟨f, hf⟩ := sublist_iff_exists_fin_orderEmbedding_get_eq.mp hsub
    refine ⟨fun i => f (i.cast hlen), ?_, ?_⟩
    · intro i j hij
      exact f.strictMono hij
    · intro i
      rw [← hf]
      exact hget i i.isLt (hlen ▸ i.isLt)
  · rintro ⟨f, hmono, hrel⟩
    -- the places that are taken form the list between the two
    let cs := ofFn fun i => bs.get (f i)
    have hlen : cs.length = as.length := length_ofFn
    refine ⟨cs, forall₂_iff_get.mpr ⟨hlen.symm, ?_⟩, ?_⟩
    · intro i hi hi'
      have hcs : cs.get ⟨i, hi'⟩ = bs.get (f ⟨i, hi⟩) := List.getElem_ofFn hi'
      rw [hcs]
      exact hrel ⟨i, hi⟩
    · refine sublist_iff_exists_fin_orderEmbedding_get_eq.mpr ⟨?_, ?_⟩
      · exact OrderEmbedding.ofStrictMono (fun i => f (i.cast hlen)) fun _ _ hij => hmono hij
      · intro i
        exact List.getElem_ofFn i.isLt

theorem OrderedMatch.reverse_iff : OrderedMatch R as.reverse bs.reverse ↔ OrderedMatch R as bs := by
  rw [← sublistForall₂_iff, ← sublistForall₂_iff, List.sublistForall₂_iff, List.sublistForall₂_iff]
  constructor
  · rintro ⟨cs, hforall, hsub⟩
    refine ⟨cs.reverse, ?_, ?_⟩
    · rw [← List.reverse_reverse as]
      exact List.rel_reverse hforall
    · exact List.reverse_sublist.mp (by rwa [List.reverse_reverse])
  · rintro ⟨cs, hforall, hsub⟩
    exact ⟨cs.reverse, List.rel_reverse hforall, List.reverse_sublist.mpr hsub⟩

end OrderedMatching
