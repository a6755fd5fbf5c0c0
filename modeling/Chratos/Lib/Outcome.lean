import Mathlib.Data.List.Induction

/-!
# Outcome — fallible computations and their loops

The shape shared by every checking function: a computation that either returns a value or
stops with a failure. This module holds the inversion rules that peel such a computation
apart (`bind_eq_ok`, `failIf_eq_ok`) and the loop rules for a fallible fold: what one step
preserves, the whole loop preserves (`foldlM_ok_rec`), and a loop no iteration of which can fail
finishes (`foldlM_ok_of_step`). What can be said of a failure wherever it comes from is said by
`FailsWith`, with one rule per way of putting computations together.
-/

namespace Outcome

open List

variable {ε α β σ : Type}

/-- Stop with `e` when the test holds, go on otherwise. -/
def failIf (c : Bool) (e : ε) : Except ε Unit :=
  if c then .error e else .ok ()

variable {x : Except ε α} {l : List α} {f : σ → α → Except ε σ} {b : β} {e : ε} {c : Bool}
  {u : Unit} {s t : σ}

theorem bind_eq_ok {f : α → Except ε β} : (x >>= f) = .ok b ↔ ∃ a, x = .ok a ∧ f a = .ok b := by
  cases x with
  | error e => simp [bind, Except.bind]
  | ok a => simp [bind, Except.bind]

theorem map_eq_ok {f : α → β} : f <$> x = .ok b ↔ ∃ a, x = .ok a ∧ f a = b := by
  cases x with
  | error e => simp [Functor.map, Except.map]
  | ok a => simp [Functor.map, Except.map]

theorem ok_bind (a : α) (f : α → Except ε β) : (Except.ok a >>= f) = f a := rfl

/-- What a computation stopped with. -/
def failure? : Except ε α → Option ε
  | .ok _ => none
  | .error e => some e

theorem failure?_eq_some : failure? x = some e ↔ x = .error e := by
  cases x <;> simp [failure?]

/-- The value of a check carries nothing. -/
theorem exists_unit {p : Unit → Prop} : (∃ u, p u) ↔ p () :=
  ⟨fun ⟨_, h⟩ => h, fun h => ⟨(), h⟩⟩

theorem failIf_eq_ok : failIf c e = .ok u ↔ c = false := by
  cases c <;> simp [failIf]

/-- A test followed by the rest of the computation: the whole succeeds exactly when the
test does not fire and the rest succeeds. -/
theorem failIf_bind_eq_ok {f : Unit → Except ε β} :
    (failIf c e >>= f) = .ok b ↔ c = false ∧ f () = .ok b := by
  rw [bind_eq_ok]
  constructor
  · rintro ⟨u, hu, hf⟩
    exact ⟨failIf_eq_ok.mp hu, hf⟩
  · rintro ⟨hc, hf⟩
    exact ⟨(), failIf_eq_ok.mpr hc, hf⟩

/-! ## Loops -/

/-- A loop without a state: all its checks pass. -/
theorem forM_eq_ok {f : α → Except ε Unit} : l.forM f = .ok u ↔ ∀ a ∈ l, f a = .ok () := by
  induction l with
  | nil => simp [List.forM, pure, Except.pure]
  | cons a l ih =>
    show (f a >>= fun _ => l.forM f) = .ok u ↔ _
    rw [bind_eq_ok, forall_mem_cons, ← ih]
    constructor
    · rintro ⟨v, ha, hl⟩
      exact ⟨ha, hl⟩
    · rintro ⟨ha, hl⟩
      exact ⟨(), ha, hl⟩

theorem foldlM_cons_eq_ok {a : α} :
    (a :: l).foldlM f s = .ok t ↔ ∃ u, f s a = .ok u ∧ l.foldlM f u = .ok t := by
  rw [foldlM_cons, bind_eq_ok]

theorem foldlM_append_eq_ok {l' : List α} :
    (l ++ l').foldlM f s = .ok t ↔ ∃ u, l.foldlM f s = .ok u ∧ l'.foldlM f u = .ok t := by
  rw [foldlM_append, bind_eq_ok]

theorem foldlM_concat_eq_ok {a : α} :
    (l ++ [a]).foldlM f s = .ok t ↔ ∃ u, l.foldlM f s = .ok u ∧ f u a = .ok t := by
  simp [foldlM_append, bind_eq_ok]

/-- **The loop rule.** `P done s` relates the part of the list already consumed to the
current state. If it holds at the start and one successful iteration carries it along, it
holds of the whole list at the end of a successful loop. -/
theorem foldlM_ok_rec (P : List α → σ → Prop)
    (hstep : ∀ done a s t, P done s → f s a = .ok t → P (done ++ [a]) t) (h0 : P [] s)
    (h : l.foldlM f s = .ok t) : P l t := by
  induction l using reverseRecOn generalizing t with
  | nil =>
    cases h
    exact h0
  | append_singleton done a ih =>
    obtain ⟨u, hdone, ha⟩ := foldlM_concat_eq_ok.mp h
    exact hstep done a u t (ih hdone) ha

/-- **The forward loop rule.** If each iteration succeeds from any state the invariant allows and
carries it along, the loop finishes with the invariant. -/
theorem foldlM_ok_of_step (P : List α → σ → Prop) (h0 : P [] s)
    (hstep : ∀ done a rest s, l = done ++ a :: rest → P done s → ∃ t, f s a = .ok t ∧
      P (done ++ [a]) t) : ∃ t, l.foldlM f s = .ok t ∧ P l t := by
  induction l using reverseRecOn with
  | nil => exact ⟨s, rfl, h0⟩
  | append_singleton done a ih =>
    obtain ⟨u, hdone, hu⟩ := ih fun d b rest v hl hP =>
      hstep d b (rest ++ [a]) v (by simp [hl]) hP
    obtain ⟨t, ha, ht⟩ := hstep done a [] u rfl hu
    exact ⟨t, foldlM_concat_eq_ok.mpr ⟨u, hdone, ha⟩, ht⟩

/-! ## Failures -/

/-- If the computation fails, then with such a failure. -/
def FailsWith (P : ε → Prop) (x : Except ε α) : Prop :=
  ∀ e, x = .error e → P e

namespace FailsWith

variable {P : ε → Prop}

theorem ok (a : α) : FailsWith P (.ok a : Except ε α) := nofun

theorem error {e : ε} (h : P e) : FailsWith P (.error e : Except ε α) := by
  intro e' he
  exact Except.error.inj he ▸ h

/-- The rest is asked only after a success of the first part. -/
theorem bind {x : Except ε α} {f : α → Except ε β} (hx : FailsWith P x)
    (hf : ∀ a, x = .ok a → FailsWith P (f a)) : FailsWith P (x >>= f) := by
  cases x with
  | error e => exact error (hx e rfl)
  | ok a => exact hf a rfl

theorem failIf {c : Bool} {e : ε} (h : c = true → P e) : FailsWith P (Outcome.failIf c e) := by
  cases c with
  | false => exact ok ()
  | true => exact error (h rfl)

theorem foldlM {f : σ → α → Except ε σ} {l : List α} (hstep : ∀ a ∈ l, ∀ s, FailsWith P (f s a)) :
    ∀ s, FailsWith P (l.foldlM f s) := by
  induction l with
  | nil => exact fun s => ok s
  | cons a l ih =>
    intro s
    exact (hstep a mem_cons_self s).bind fun t _ =>
      ih (fun b hb => hstep b (mem_cons_of_mem a hb)) t

theorem forM {f : α → Except ε Unit} {l : List α} (hstep : ∀ a ∈ l, FailsWith P (f a)) :
    FailsWith P (l.forM f) := by
  induction l with
  | nil => exact ok ()
  | cons a l ih =>
    exact (hstep a mem_cons_self).bind fun _ _ =>
      ih fun b hb => hstep b (mem_cons_of_mem a hb)

end FailsWith

end Outcome
