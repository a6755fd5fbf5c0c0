import Mathlib.Order.Basic

/-!
# WriteBack — one key in a stack of caches

A cache in front of a store keeps, for a key, nothing or an entry. An entry that differs from the
store is *dirty*, and one that the store is known to have nothing for is *fresh*: when it has become
void it can be dropped without a trace. A value is *void* if it counts as nothing.

`Shows x y e` says that entry `e` turns the value `x` seen below it into `y`. Caches can be stacked,
since what is seen through one of them is what the next stands on.
-/

namespace WriteBack

variable {α : Type}

structure Entry (α : Type) where
  value : α
  dirty : Bool := false
  fresh : Bool := false

section

variable (void : α → Bool)

/-- What a value counts for. -/
def seen (a : α) : Option α := if void a then none else some a

/-- An entry that holds nothing and hides nothing is not kept. -/
def settle (e : Entry α) : Option (Entry α) :=
  if e.fresh && void e.value then none else some e

/-- What becomes of the entry below when the one above is written into it. Only dirty entries are
written. -/
def absorb : Option (Entry α) → Option (Entry α) → Option (Entry α)
  | none, below => below
  | some e, below =>
    if e.dirty then
      match below with
      | none =>
        -- nothing is known there, so the entry is as fresh as it was above
        if e.fresh && void e.value then none else some ⟨e.value, true, e.fresh⟩
      | some b => if b.fresh && void e.value then none else some ⟨e.value, true, b.fresh⟩
    else below

/-- The entry turns what is seen below, `x`, into `y`. -/
def Shows (x y : Option α) : Option (Entry α) → Prop
  | none => y = x
  | some e => y = seen void e.value ∧ (e.fresh = true → x = none) ∧ (e.dirty = false → y = x)

end

variable {void : α → Bool} {x y z : Option α} {a : α}

theorem seen_of_void (h : void a = true) : seen void a = none := if_pos h

theorem seen_eq_none : seen void a = none ↔ void a = true := by
  unfold seen
  cases void a with
  | true => exact iff_of_true rfl rfl
  | false => exact iff_of_false (Option.some_ne_none a) Bool.false_ne_true

theorem eq_of_seen {b : α} (h : seen void a = some b) : a = b := by
  unfold seen at h
  split_ifs at h
  exact Option.some.inj h

/-- A value that has been read from below. -/
theorem shows_fetched (h : seen void a = x) : Shows void x x (some ⟨a, false, void a⟩) :=
  ⟨h.symm, fun hvoid => h ▸ seen_of_void hvoid, fun _ => rfl⟩

/-- A value that has been written. -/
theorem shows_settle {fresh : Bool} (h : fresh = true → x = none) :
    Shows void x (seen void a) (settle void ⟨a, true, fresh⟩) := by
  unfold settle
  split_ifs with hdrop
  · obtain ⟨hfresh, hvoid⟩ := Bool.and_eq_true_iff.mp hdrop
    exact (seen_of_void hvoid).trans (h hfresh).symm
  · exact ⟨rfl, h, nofun⟩

/-- A clean entry can be forgotten. -/
theorem Shows.drop {e : Entry α} (h : Shows void x y (some e)) (hclean : e.dirty = false) :
    Shows void x y none :=
  h.2.2 hclean

/-- Through the entry below and the one above the same is seen as through their union. -/
theorem Shows.absorb {above below : Option (Entry α)} (hbelow : Shows void x y below)
    (habove : Shows void y z above) : Shows void x z (absorb void above below) := by
  cases above with
  | none =>
    obtain rfl : z = y := habove
    exact hbelow
  | some e =>
    obtain ⟨rfl, hfresh, hclean⟩ := habove
    unfold WriteBack.absorb
    dsimp only
    by_cases hdirty : e.dirty = true
    · rw [if_pos hdirty]
      cases below with
      | none =>
        -- the two stand on the same
        obtain rfl : y = x := hbelow
        exact shows_settle hfresh
      | some b => exact shows_settle hbelow.2.1
    · rw [if_neg hdirty, hclean (Bool.not_eq_true _ ▸ hdirty)]
      exact hbelow

end WriteBack
