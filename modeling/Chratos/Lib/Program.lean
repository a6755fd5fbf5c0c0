import Chratos.Lib.Outcome

/-!
# Program — pre- and postconditions, and programs that allow more than others

Two ways to speak of a fallible computation without running it.

* `Ends Q E x` — `x` ends with a value that satisfies `Q` or with a failure that satisfies `E`; what a
  step may assume of the state is a hypothesis, so these are Hoare triples;
* `Relaxes x y` — whatever `y` returns, `x` returns too: `y` may fail where `x` does not, but it never
  returns something else.

Each has one rule per way of putting computations together.
-/

namespace Outcome

variable {ε α β σ : Type}

/-! ## Postconditions -/

/-- How a computation may end. -/
def Ends (Q : α → Prop) (E : ε → Prop) : Except ε α → Prop
  | .ok a => Q a
  | .error e => E e

namespace Ends

variable {Q Q' : α → Prop} {R : β → Prop} {E : ε → Prop} {x : Except ε α}

theorem of_eq_ok {a : α} (h : Ends Q E x) (hx : x = .ok a) : Q a := by
  rw [hx] at h
  exact h

theorem or_of_ends (h : Ends Q E x) : (∃ e, x = .error e ∧ E e) ∨ ∃ a, x = .ok a ∧ Q a := by
  cases x with
  | error e => exact .inl ⟨e, rfl, h⟩
  | ok a => exact .inr ⟨a, rfl, h⟩

theorem mono (h : Ends Q E x) (hQ : ∀ a, Q a → Q' a) : Ends Q' E x := by
  cases x with
  | error e => exact h
  | ok a => exact hQ a h

theorem excuse {E' : ε → Prop} (h : Ends Q E x) (hE : ∀ e, E e → E' e) : Ends Q E' x := by
  cases x with
  | error e => exact hE e h
  | ok a => exact h

/-- The value is also known to be the one that is returned. -/
theorem returned (h : Ends Q E x) : Ends (fun a => x = .ok a ∧ Q a) E x := by
  cases x with
  | error e => exact h
  | ok a => exact ⟨rfl, h⟩

/-- One computation after the other. -/
theorem bind {f : α → Except ε β} (hx : Ends Q E x) (hf : ∀ a, Q a → Ends R E (f a)) :
    Ends R E (x >>= f) := by
  cases x with
  | error e => exact hx
  | ok a => exact hf a hx

theorem ite {c : Prop} [Decidable c] {y : Except ε α} (hx : c → Ends Q E x) (hy : ¬ c → Ends Q E y) :
    Ends Q E (if c then x else y) := by
  by_cases hc : c
  · rw [if_pos hc]
    exact hx hc
  · rw [if_neg hc]
    exact hy hc

/-- After a check the test is known to be false. -/
theorem failIf {c : Bool} {e : ε} (he : E e) : Ends (fun _ => c = false) E (Outcome.failIf c e) := by
  cases c with
  | false => exact rfl
  | true => exact he

/-- A loop keeps what each round keeps. -/
theorem foldlM {f : σ → α → Except ε σ} {P : σ → Prop} {l : List α}
    (hstep : ∀ a ∈ l, ∀ s, P s → Ends P E (f s a)) {s : σ} (hs : P s) : Ends P E (l.foldlM f s) := by
  induction l generalizing s with
  | nil => exact hs
  | cons a l ih =>
    refine (hstep a List.mem_cons_self s hs).bind ?_
    intro t ht
    exact ih (fun b hb => hstep b (List.mem_cons_of_mem a hb)) ht

end Ends

/-! ## Programs that allow more -/

/-- Whatever `y` returns, `x` returns. -/
def Relaxes (x y : Except ε α) : Prop := ∀ a, y = .ok a → x = .ok a

namespace Relaxes

theorem refl (x : Except ε α) : Relaxes x x := fun _ h => h

/-- A failure allows nothing. -/
theorem error (x : Except ε α) (e : ε) : Relaxes x (.error e) := nofun

variable {x y : Except ε α} {f g : α → Except ε β}

theorem bind (hxy : Relaxes x y) (hfg : ∀ a, Relaxes (f a) (g a)) :
    Relaxes (x >>= f) (y >>= g) := by
  intro b hb
  obtain ⟨a, hy, hg⟩ := bind_eq_ok.mp hb
  exact bind_eq_ok.mpr ⟨a, hxy a hy, hfg a b hg⟩

/-- One rest after either program. -/
theorem before (h : Relaxes x y) : Relaxes (x >>= f) (y >>= f) :=
  h.bind fun _ => refl _

/-- Either rest after one program. -/
theorem after (h : ∀ a, Relaxes (f a) (g a)) : Relaxes (x >>= f) (x >>= g) :=
  (refl x).bind h

/-- What comes before may be left out. -/
theorem of_bind {x : Except ε β} (h : ∀ a, Relaxes x (g a)) : Relaxes x (y >>= g) := by
  intro b hb
  obtain ⟨a, -, hg⟩ := bind_eq_ok.mp hb
  exact h a b hg

/-- A check that fires less often. -/
theorem failIf {c d : Bool} {e e' : ε} (h : d = false → c = false) :
    Relaxes (failIf c e) (failIf d e') := by
  intro u hd
  exact failIf_eq_ok.mpr (h (failIf_eq_ok.mp hd))

theorem ite {c : Prop} [Decidable c] {x' y' : Except ε α} (hx : c → Relaxes x y)
    (hx' : ¬ c → Relaxes x' y') : Relaxes (if c then x else x') (if c then y else y') := by
  by_cases hc : c
  · rw [if_pos hc, if_pos hc]
    exact hx hc
  · rw [if_neg hc, if_neg hc]
    exact hx' hc

theorem foldlM {f g : σ → α → Except ε σ} (hstep : ∀ s a, Relaxes (f s a) (g s a)) (l : List α)
    (s : σ) : Relaxes (l.foldlM f s) (l.foldlM g s) := by
  induction l generalizing s with
  | nil => exact refl _
  | cons a l ih =>
    exact (hstep s a).bind ih

end Relaxes

end Outcome
