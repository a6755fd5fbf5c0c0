import Chratos.Lib.Outcome
import Mathlib.Data.List.Nodup
import Mathlib.Data.List.Sort
import Mathlib.Data.Set.Insert

/-!
# Worklist — marking what can be reached

A loop takes the least element of a set `todo`, puts it into a set `done` and visits it. The visit
may change the state, and names elements to go on with, of which those that are not in `done` get
into `todo`.
-/

namespace Worklist

open Outcome List

variable {α σ ε : Type} [DecidableEq α]

section

variable (r : α → α → Prop) [DecidableRel r]

/-- Insertion into an ordered set. -/
def insertSet (todo : List α) (x : α) : List α := if x ∈ todo then todo else todo.orderedInsert r x

def push (done todo next : List α) : List α :=
  next.foldl (fun todo x => if x ∈ done then todo else insertSet r todo x) todo

/-- The loop. `exhausted` is for a number of visits that was too small. -/
def loop (exhausted : ε) (visit : σ → α → Except ε (σ × List α)) :
    Nat → σ → List α → List α → Except ε σ
  | _, s, [], _ => .ok s
  | 0, _, _ :: _, _ => .error exhausted
  | fuel + 1, s, now :: todo, done => do
    let visited ← visit s now
    loop exhausted visit fuel visited.1 (push r (now :: done) todo visited.2) (now :: done)

end

variable {r : α → α → Prop} [DecidableRel r] {todo done next : List α} {y : α} {fuel : Nat}
  {s s' : σ}

theorem mem_insertSet {x : α} : y ∈ insertSet r todo x ↔ y = x ∨ y ∈ todo := by
  unfold insertSet
  split
  · next hx =>
    constructor
    · exact .inr
    · rintro (rfl | hy)
      · exact hx
      · exact hy
  · exact mem_orderedInsert r

theorem nodup_insertSet (h : todo.Nodup) (x : α) : (insertSet r todo x).Nodup := by
  unfold insertSet
  split
  · exact h
  · next hx => exact (perm_orderedInsert r x todo).nodup_iff.mpr (nodup_cons.mpr ⟨hx, h⟩)

theorem mem_push : y ∈ push r done todo next ↔ y ∈ todo ∨ y ∈ next ∧ y ∉ done := by
  induction next generalizing todo with
  | nil => simp [push]
  | cons x next ih =>
    show y ∈ push r done (if x ∈ done then todo else insertSet r todo x) next ↔ _
    rw [ih]
    by_cases hx : x ∈ done
    · rw [if_pos hx, mem_cons]
      constructor
      · tauto
      · rintro (hy | ⟨rfl | hy, hdone⟩)
        · exact .inl hy
        · exact absurd hx hdone
        · exact .inr ⟨hy, hdone⟩
    · rw [if_neg hx, mem_insertSet, mem_cons]
      constructor
      · rintro ((rfl | hy) | hy)
        · exact .inr ⟨.inl rfl, hx⟩
        · exact .inl hy
        · exact .inr ⟨.inr hy.1, hy.2⟩
      · tauto

theorem nodup_push (h : todo.Nodup) : (push r done todo next).Nodup := by
  induction next generalizing todo with
  | nil => exact h
  | cons x next ih =>
    apply ih
    show (if x ∈ done then todo else insertSet r todo x).Nodup
    split
    · exact h
    · exact nodup_insertSet h x

/-- Nothing waits that has been visited. -/
theorem push_disjoint {now : α} (hnow : now ∉ todo) (h : ∀ x ∈ todo, x ∉ done) :
    ∀ x ∈ push r (now :: done) todo next, x ∉ now :: done := by
  intro x hx hmem
  rcases mem_push.mp hx with htodo | hnext
  · rcases mem_cons.mp hmem with rfl | hmem
    · exact hnow htodo
    · exact h x htodo hmem
  · exact hnext.2 hmem

variable {exhausted : ε} {visit : σ → α → Except ε (σ × List α)}

/-- **What a visit keeps**, the loop keeps. An element is visited once. -/
theorem loop_rec {I : σ → List α → List α → Prop}
    (hstep : ∀ s now todo done s' next todo', I s (now :: todo) done → now ∉ done →
      visit s now = .ok (s', next) → (∀ x, x ∈ todo' ↔ x ∈ todo ∨ x ∈ next ∧ x ∉ now :: done) →
      I s' todo' (now :: done)) (hnodup : todo.Nodup) (hdone : ∀ x ∈ todo, x ∉ done)
    (hI : I s todo done) (h : loop r exhausted visit fuel s todo done = .ok s') :
    ∃ done', I s' [] done' := by
  induction fuel generalizing s todo done with
  | zero =>
    cases todo with
    | nil =>
      cases h
      exact ⟨done, hI⟩
    | cons now todo => cases h
  | succ fuel ih =>
    cases todo with
    | nil =>
      cases h
      exact ⟨done, hI⟩
    | cons now todo =>
      obtain ⟨⟨s₁, next⟩, hvisit, h⟩ := bind_eq_ok.mp h
      rw [nodup_cons] at hnodup
      refine ih (nodup_push hnodup.2) ?_ ?_ h
      · exact push_disjoint hnodup.1 fun x hx => hdone x (mem_cons_of_mem _ hx)
      · exact hstep s now todo done s₁ next _ hI (hdone now mem_cons_self) hvisit fun x => mem_push

/-- **The loop ends**: where all elements are from a list, there are no more visits than elements,
and the loop fails only if a visit does. -/
theorem loop_error {J : σ → Prop} {all : List α}
    (hvisit : ∀ s x s' next, J s → x ∈ all → visit s x = .ok (s', next) → J s' ∧ next ⊆ all) {e : ε}
    (hJ : J s) (hnodup : todo.Nodup) (hdoneNodup : done.Nodup) (hdone : ∀ x ∈ todo, x ∉ done)
    (htodo : todo ⊆ all) (hall : done ⊆ all) (hfuel : all.length ≤ fuel + done.length)
    (h : loop r exhausted visit fuel s todo done = .error e) :
    ∃ s x, J s ∧ x ∈ all ∧ visit s x = .error e := by
  induction fuel generalizing s todo done with
  | zero =>
    cases todo with
    | nil => cases h
    | cons now todo =>
      -- one more element than there are
      have hmore : (now :: done).Nodup := nodup_cons.mpr ⟨hdone now mem_cons_self, hdoneNodup⟩
      have hle : (now :: done).length ≤ all.length :=
        (subperm_of_subset hmore (cons_subset.mpr ⟨htodo mem_cons_self, hall⟩)).length_le
      rw [length_cons] at hle
      omega
  | succ fuel ih =>
    cases todo with
    | nil => cases h
    | cons now todo =>
      have hnow := hdone now mem_cons_self
      have hloop : (visit s now >>= fun visited => loop r exhausted visit fuel visited.1
        (push r (now :: done) todo visited.2) (now :: done)) = .error e := h
      rw [nodup_cons] at hnodup
      rw [cons_subset] at htodo
      cases hvisited : visit s now with
      | error e' =>
        rw [hvisited] at hloop
        cases hloop
        exact ⟨s, now, hJ, htodo.1, hvisited⟩
      | ok visited =>
        rw [hvisited] at hloop
        obtain ⟨hJ', hnext⟩ := hvisit s now visited.1 visited.2 hJ htodo.1 hvisited
        refine ih hJ' (nodup_push hnodup.2) (nodup_cons.mpr ⟨hnow, hdoneNodup⟩) ?_ ?_ ?_ ?_ hloop
        · exact push_disjoint hnodup.1 fun x hx => hdone x (mem_cons_of_mem _ hx)
        · intro x hx
          rcases mem_push.mp hx with hx | hx
          · exact htodo.2 hx
          · exact hnext hx.1
        · exact cons_subset.mpr ⟨htodo.1, hall⟩
        · rw [length_cons]
          omega

/-! ## Marking -/

section

omit [DecidableEq α]

/-- What is reached through open elements only, itself open. -/
inductive Reach (isOpen : α → Prop) (next : α → α → Prop) (start : α) : α → Prop
  | start : isOpen start → Reach isOpen next start start
  | step {x y : α} : Reach isOpen next start x → next x y → isOpen y → Reach isOpen next start y

theorem Reach.isOpen {isOpen : α → Prop} {next : α → α → Prop} {start x : α}
    (h : Reach isOpen next start x) : isOpen x := by
  cases h with
  | start hopen => exact hopen
  | step _ _ hopen => exact hopen

variable {isOpen : α → Prop} {start x : α}

theorem Reach.isOpen_start {next : α → α → Prop} (h : Reach isOpen next start x) :
    isOpen start := by
  induction h with
  | start hopen => exact hopen
  | step _ _ _ ih => exact ih

/-- How far marking has come: `M` are the elements that are marked. -/
structure Marking (isOpen : α → Prop) (next : α → α → Prop) (start : α)
    (todo done : List α) (M : Set α) :
    Prop where
  sound : ∀ x ∈ M, Reach isOpen next start x
  visited : ∀ x ∈ M, x ∈ done
  waiting : ∀ x ∈ todo, x = start ∨ ∃ p, Reach isOpen next start p ∧ next p x
  marked : ∀ x ∈ done, isOpen x → x ∈ M
  closed : ∀ x ∈ M, ∀ y, next x y → y ∈ todo ∨ y ∈ done
  started : start ∈ todo ∨ start ∈ done

/-- When nothing is left to do, what can be reached is marked. -/
theorem Marking.eq_reach {next : α → α → Prop} {done : List α} {M : Set α}
    (h : Marking isOpen next start [] done M) : M = {x | Reach isOpen next start x} := by
  refine Set.Subset.antisymm h.sound fun x hx => ?_
  induction hx with
  | start hopen => exact h.marked start (h.started.resolve_left not_mem_nil) hopen
  | step _ hnext hopen ih =>
    exact h.marked _ ((h.closed _ ih _ hnext).resolve_left not_mem_nil) hopen

end

/-- **A marking visit**: it marks an element that is open and goes on from it, and leaves one that
is not. `P M` are the states in which `M` is marked. -/
theorem loop_marks {isOpen : α → Prop} {next : α → α → Prop} {P : Set α → σ → Prop} {start : α}
    (hvisit : ∀ M s x s' xs, P M s → x ∉ M → visit s x = .ok (s', xs) →
      isOpen x ∧ P (insert x M) s' ∧ (∀ y, y ∈ xs ↔ next x y) ∨ ¬ isOpen x ∧ P M s' ∧ xs = [])
    (h0 : P ∅ s) (h : loop r exhausted visit fuel s [start] [] = .ok s') :
    P {x | Reach isOpen next start x} s' := by
  -- one visit
  have hstep : ∀ s now todo done s' xs todo',
      (∃ M, P M s ∧ Marking isOpen next start (now :: todo) done M) → now ∉ done →
      visit s now = .ok (s', xs) → (∀ x, x ∈ todo' ↔ x ∈ todo ∨ x ∈ xs ∧ x ∉ now :: done) →
      ∃ M, P M s' ∧ Marking isOpen next start todo' (now :: done) M := by
    rintro s now todo done s₁ xs todo' ⟨M, hafter, hM⟩ hnow hok htodo'
    have hfresh : now ∉ M := fun hmem => hnow (hM.visited now hmem)
    have hkept : ∀ x, x ∈ now :: todo ∨ x ∈ done → x ∈ todo' ∨ x ∈ now :: done := by
      intro x hx
      rw [htodo', mem_cons]
      rw [mem_cons] at hx
      tauto
    rcases hvisit M s now s₁ xs hafter hfresh hok with ⟨hopen, hafter', hxs⟩ | ⟨hclosed, hafter', rfl⟩
    · have hreach : Reach isOpen next start now := by
        rcases hM.waiting now mem_cons_self with rfl | ⟨p, hp, hnext⟩
        · exact .start hopen
        · exact .step hp hnext hopen
      refine ⟨insert now M, hafter', ?_, ?_, ?_, ?_, ?_, hkept start hM.started⟩
      · rintro x (rfl | hx)
        · exact hreach
        · exact hM.sound x hx
      · rintro x (rfl | hx)
        · exact mem_cons_self
        · exact mem_cons_of_mem _ (hM.visited x hx)
      · intro x hx
        rcases (htodo' x).mp hx with hx | ⟨hx, -⟩
        · exact hM.waiting x (mem_cons_of_mem _ hx)
        · exact .inr ⟨now, hreach, (hxs x).mp hx⟩
      · intro x hx hxopen
        rcases mem_cons.mp hx with rfl | hx
        · exact Set.mem_insert x M
        · exact Set.mem_insert_of_mem _ (hM.marked x hx hxopen)
      · rintro x (rfl | hx) y hnext
        · -- what the visit named waits, unless it was visited
          by_cases hy : y ∈ x :: done
          · exact .inr hy
          · exact .inl ((htodo' y).mpr (.inr ⟨(hxs y).mpr hnext, hy⟩))
        · exact hkept y (hM.closed x hx y hnext)
    · refine ⟨M, hafter', hM.sound, ?_, ?_, ?_, ?_, hkept start hM.started⟩
      · exact fun x hx => mem_cons_of_mem _ (hM.visited x hx)
      · intro x hx
        rcases (htodo' x).mp hx with hx | ⟨hx, -⟩
        · exact hM.waiting x (mem_cons_of_mem _ hx)
        · cases hx
      · intro x hx hxopen
        rcases mem_cons.mp hx with rfl | hx
        · exact absurd hxopen hclosed
        · exact hM.marked x hx hxopen
      · exact fun x hx y hnext => hkept y (hM.closed x hx y hnext)
  have hinit : Marking isOpen next start [start] [] ∅ :=
    ⟨fun _ hx => absurd hx (Set.notMem_empty _), fun _ hx => absurd hx (Set.notMem_empty _),
      fun x hx => .inl (mem_singleton.mp hx), fun _ hx => absurd hx not_mem_nil,
      fun _ hx => absurd hx (Set.notMem_empty _), .inl mem_cons_self⟩
  obtain ⟨done, M, hafter, hmarking⟩ := loop_rec
    (I := fun s todo done => ∃ M, P M s ∧ Marking isOpen next start todo done M) hstep
    (nodup_singleton start) (fun _ _ => not_mem_nil) ⟨∅, h0, hinit⟩ h
  rw [← hmarking.eq_reach]
  exact hafter

end Worklist
