import Mathlib.Data.List.Basic

/-!
# Effect — computations that change a state and may throw

A computation of a language with exceptions: what it has done to the state before it throws stays
done. `Keeps P x` says that `x` leads from states with `P` to such states, however it ends; the rules
follow the ways such computations are put together, `Keeps.foldlM` for loops.

The second part is a map as such languages have it: looking a key up with the subscript operator adds
the key, with a default value, if it is not there (`StdMap.subscript`). A map that serves as the table
of a memoised function agrees with the function (`StdMap.Agrees`).
-/

namespace Effects

variable {σ ε α β : Type}

/-- A state is passed along, also when an exception is thrown. -/
abbrev Effect (σ ε α : Type) := ExceptT ε (StateM σ) α

variable {x : Effect σ ε α} {f : α → Effect σ ε β} {s s' : σ}

/-- What follows runs on from where a computation ended. -/
theorem bind_apply_ok {a : α} (h : x s = (.ok a, s')) : (x >>= f) s = f a s' := by
  show (ExceptT.bindCont f (x s).1 : StateM σ (Except ε β)) (x s).2 = f a s'
  rw [h]
  rfl

theorem bind_apply_error {e : ε} (h : x s = (.error e, s')) : (x >>= f) s = (.error e, s') := by
  show (ExceptT.bindCont f (x s).1 : StateM σ (Except ε β)) (x s).2 = _
  rw [h]
  rfl

/-- However the computation ends, `P` still holds. -/
def Keeps (P : σ → Prop) (x : Effect σ ε α) : Prop := ∀ s, P s → P (x s).2

variable {P : σ → Prop}

theorem keeps_pure (a : α) : Keeps P (pure a : Effect σ ε α) := fun _ h => h

theorem keeps_throw (e : ε) : Keeps P (throw e : Effect σ ε α) := fun _ h => h

theorem Keeps.bind (hx : Keeps P x) (hf : ∀ a, Keeps P (f a)) : Keeps P (x >>= f) := by
  intro s hs
  have hmid := hx s hs
  show P (ExceptT.bindCont f (x s).1 (x s).2).2
  cases (x s).1 with
  | error e => exact hmid
  | ok a => exact hf a _ hmid

/-- What follows may use what is known of the state that has been read. -/
theorem keeps_get_bind {f : σ → Effect σ ε β} (hf : ∀ s, P s → Keeps P (f s)) :
    Keeps P (get >>= f) := fun s hs => hf s hs s hs

theorem keeps_ite {c : Prop} [Decidable c] {y : Effect σ ε α} (hx : c → Keeps P x)
    (hy : ¬ c → Keeps P y) : Keeps P (if c then x else y) := by
  by_cases hc : c
  · rw [if_pos hc]
    exact hx hc
  · rw [if_neg hc]
    exact hy hc

theorem Keeps.foldlM {f : β → α → Effect σ ε β} {l : List α} (hf : ∀ a ∈ l, ∀ b, Keeps P (f b a))
    (b : β) : Keeps P (l.foldlM f b) := by
  induction l generalizing b with
  | nil => exact keeps_pure b
  | cons a l ih =>
    exact (hf a List.mem_cons_self b).bind fun b' =>
      ih (fun x hx => hf x (List.mem_cons_of_mem _ hx)) b'

end Effects

/-! ## Maps with a subscript operator -/

/-- A map as the list of its pairs. -/
abbrev StdMap (κ α : Type) := List (κ × α)

namespace StdMap

variable {κ α : Type} [DecidableEq κ]

section

variable (m : StdMap κ α)

def find (k : κ) : Option α := (m.find? fun e => e.1 = k).map Prod.snd

def count (k : κ) : Bool := (m.find k).isSome

/-- `insert` leaves a key that is there as it is. -/
def insert (k : κ) (a : α) : StdMap κ α := if m.count k then m else (k, a) :: m

/-- `m[k]`: a key that is missing is added. -/
def subscript (default : α) (k : κ) : StdMap κ α × α :=
  match m.find k with
  | some a => (m, a)
  | none => ((k, default) :: m, default)

/-- `m[k] = a`. -/
def assign (k : κ) (a : α) : StdMap κ α := (k, a) :: m.filter fun e => e.1 ≠ k

end

variable {m : StdMap κ α} {k : κ} {a default : α}

theorem mem_of_find (h : m.find k = some a) : (k, a) ∈ m := by
  obtain ⟨e, he, rfl⟩ := Option.map_eq_some_iff.mp h
  have hkey : e.1 = k := by simpa using List.find?_some he
  rw [← hkey]
  exact List.mem_of_find?_eq_some he

theorem subscript_of_count (h : m.count k = true) : (m.subscript default k).1 = m := by
  obtain ⟨a, ha⟩ := Option.isSome_iff_exists.mp h
  rw [subscript, ha]

theorem find_assign (m : StdMap κ α) (k : κ) (a : α) (k' : κ) :
    (m.assign k a).find k' = if k = k' then some a else m.find k' := by
  rw [find, assign, List.find?_cons]
  by_cases hk : k = k'
  · simp [hk]
  · -- what is filtered out has another key
    have hsame : ∀ e : κ × α, (e.1 ≠ k ∧ e.1 = k') ↔ e.1 = k' :=
      fun e => ⟨And.right, fun he => ⟨fun heq => hk (heq.symm.trans he), he⟩⟩
    simp only [hk, decide_false, if_false, List.find?_filter, decide_eq_true_eq, hsame, find]

/-- A table of a function that may fail: what it has for a key is the function's value there. -/
def Agrees (f : κ → Option α) (m : StdMap κ α) : Prop := ∀ k a, m.find k = some a → f k = some a

theorem agrees_nil (f : κ → Option α) : Agrees f [] := fun _ _ h => nomatch h

theorem Agrees.assign {f : κ → Option α} (h : Agrees f m) (hk : f k = some a) :
    Agrees f (m.assign k a) := by
  intro k' a' hfind
  rw [find_assign] at hfind
  by_cases hkk : k = k'
  · rw [if_pos hkk] at hfind
    rw [← hkk, hk, hfind]
  · rw [if_neg hkk] at hfind
    exact h k' a' hfind

end StdMap
