import Mathlib.Algebra.GroupWithZero.Nat
import Mathlib.Data.List.Basic

/-!
# Codec — readers over byte streams

A reader consumes a front part of a byte list and returns a value together with the bytes
it left. `Reads p bs a` says that `p`, faced with `bs` and *any* continuation, returns `a`
and leaves exactly the continuation: it is the round-trip statement in the form that
composes, because what a reader leaves is what the next reader is faced with.

The rules follow the way a serialiser is written: `Reads.bind` for one field after another,
`Reads.many` for a counted sequence, `reads_readBytes` for raw data. The value read need
not be the value written, so a lossy format is described by the same relation.

What a reader accepts is described by `Yields p P`: whatever `p` returns, from whatever bytes,
satisfies `P`.

A format that is only ever written, because it is hashed, has no reader. `Determines enc dom view`
says of it that the bytes determine a part of the value, and where they end, whatever follows:
`Determines.append`, `determines_flatMap` and `determines_of_length` are the rules.
-/

namespace Codec

open List Option

variable {α β : Type}

/-- A reader: consumes bytes from the front, may fail. -/
abbrev Reader (α : Type) := StateT (List UInt8) Option α

/-- `p` reads `bs` as `a`, whatever follows. -/
def Reads (p : Reader α) (bs : List UInt8) (a : α) : Prop :=
  ∀ rest, p (bs ++ rest) = some (a, rest)

theorem reads_pure (a : α) : Reads (pure a : Reader α) [] a := by
  intro rest
  rfl

variable {f : α → Reader β} {p : Reader α} {bs : List UInt8} {P : α → Prop} {a : α} {b : β}
  {c : Prop} {n k : Nat}

/-- One reader after another: the bytes are concatenated, the first value decides how the
rest is read. -/
theorem Reads.bind {cs : List UInt8} (hp : Reads p bs a) (hf : Reads (f a) cs b) :
    Reads (p >>= f) (bs ++ cs) b := by
  intro rest
  have h1 : p (bs ++ (cs ++ rest)) = some (a, cs ++ rest) := hp (cs ++ rest)
  show (StateT.bind p f) (bs ++ cs ++ rest) = some (b, rest)
  rw [append_assoc]
  simp only [StateT.bind, h1, bind_eq_bind, bind_some]
  exact hf rest

/-- The last step of a reader: nothing more is consumed. -/
theorem Reads.bind_nil (hp : Reads p bs a) (hf : Reads (f a) [] b) : Reads (p >>= f) bs b := by
  have h := hp.bind hf
  rwa [append_nil] at h

theorem Reads.map (hp : Reads p bs a) (g : α → β) : Reads (p >>= fun x => pure (g x)) bs (g a) :=
  hp.bind_nil (reads_pure (g a))

/-- A check that passes consumes nothing. -/
theorem reads_check [Decidable c] (hc : ¬ c) (a : α) :
    Reads (if c then failure else pure a : Reader α) [] a := by
  rw [if_neg hc]
  exact reads_pure a

/-! ## Bytes -/

def readByte : Reader UInt8
  | [] => none
  | b :: rest => some (b, rest)

theorem reads_readByte (b : UInt8) : Reads readByte [b] b := by
  intro rest
  rfl

/-- The next `n` bytes; fails when the stream is shorter. -/
def readBytes (n : Nat) : Reader (List UInt8) := fun bs =>
  if n ≤ bs.length then some (bs.take n, bs.drop n) else none

theorem reads_readBytes (hn : bs.length = n) : Reads (readBytes n) bs bs := by
  intro rest
  have hle : n ≤ (bs ++ rest).length := by simp [hn]
  simp only [readBytes, if_pos hle]
  rw [← hn, take_left, drop_left]

/-- Exactly `n` items, one after another. -/
def readMany (p : Reader α) : Nat → Reader (List α)
  | 0 => pure []
  | n + 1 => do
    let x ← p
    let xs ← readMany p n
    pure (x :: xs)

theorem readMany_add (p : Reader α) (m n : Nat) : readMany p (m + n) = (do
      let xs ← readMany p m
      let ys ← readMany p n
      pure (xs ++ ys)) := by
  induction m with
  | zero => simp [readMany]
  | succ m ih => simp [readMany, Nat.add_right_comm m 1 n, ih]

/-- A counted sequence is read item by item; `g` is what reading makes of an item. -/
theorem Reads.many {γ : Type} {enc : γ → List UInt8} {g : γ → α} {xs : List γ}
    (h : ∀ x ∈ xs, Reads p (enc x) (g x)) :
    Reads (readMany p xs.length) (xs.flatMap enc) (xs.map g) := by
  induction xs with
  | nil => exact reads_pure []
  | cons x xs ih =>
    have hx : Reads p (enc x) (g x) := h x (by simp)
    have hxs := ih (fun y hy => h y (by simp [hy]))
    exact hx.bind (hxs.map (fun ys => g x :: ys))

/-! ## Little-endian integers -/

/-- The `k` low bytes of `n`, least significant first. -/
def leBytes : Nat → Nat → List UInt8
  | 0, _ => []
  | k + 1, n => UInt8.ofNat n :: leBytes k (n / 256)

def leNat : List UInt8 → Nat
  | [] => 0
  | b :: bs => b.toNat + 256 * leNat bs

@[simp] theorem length_leBytes (k n : Nat) : (leBytes k n).length = k := by
  induction k generalizing n with
  | zero => rfl
  | succ k ih => simp [leBytes, ih]

theorem leBytes_leNat (bs : List UInt8) : leBytes bs.length (leNat bs) = bs := by
  induction bs with
  | nil => rfl
  | cons b bs ih =>
    have hb := b.toNat_lt
    have hlow : UInt8.ofNat (leNat (b :: bs)) = b := UInt8.toNat_inj.mp (by
      rw [UInt8.toNat_ofNat', leNat, Nat.add_mul_mod_self_left, Nat.mod_eq_of_lt hb])
    have hhigh : leNat (b :: bs) / 256 = leNat bs := by
      rw [leNat]
      omega
    rw [length_cons, leBytes, hlow, hhigh, ih]

theorem leNat_leBytes (k n : Nat) : leNat (leBytes k n) = n % 256 ^ k := by
  induction k generalizing n with
  | zero => simp [leBytes, leNat, Nat.mod_one]
  | succ k ih =>
    have hb : (UInt8.ofNat n).toNat = n % 256 := UInt8.toNat_ofNat' ..
    rw [leBytes, leNat, ih, hb, pow_succ, mul_comm (256 ^ k) 256, Nat.mod_mul]

theorem leNat_concat (bs : List UInt8) (b : UInt8) :
    leNat (bs ++ [b]) = leNat bs + b.toNat * 256 ^ bs.length := by
  induction bs with
  | nil => simp [leNat]
  | cons a bs ih =>
    rw [cons_append, leNat, leNat, ih, length_cons, pow_succ, Nat.mul_add, add_assoc,
      mul_comm (256 ^ bs.length) 256, Nat.mul_left_comm 256]

theorem leNat_lt (bs : List UInt8) : leNat bs < 256 ^ bs.length := by
  induction bs with
  | nil => exact Nat.one_pos
  | cons b bs ih =>
    have hb := b.toNat_lt
    rw [leNat, length_cons, pow_succ]
    omega

theorem leBytes_add (j k n : Nat) : leBytes (j + k) n = leBytes j n ++ leBytes k (n / 256 ^ j) := by
  induction j generalizing n with
  | zero => rw [zero_add, pow_zero, Nat.div_one, leBytes, nil_append]
  | succ j ih =>
    rw [Nat.succ_add, leBytes, leBytes, ih, cons_append, Nat.div_div_eq_div_mul, pow_succ']

def readLE (k : Nat) : Reader Nat := do
  let bs ← readBytes k
  pure (leNat bs)

theorem reads_readLE (hn : n < 256 ^ k) : Reads (readLE k) (leBytes k n) n := by
  have h := (reads_readBytes (length_leBytes k n)).map leNat
  rw [leNat_leBytes, Nat.mod_eq_of_lt hn] at h
  exact h

/-! ## What a reader leaves -/

/-- What `p` leaves is no longer than what it was given. -/
def Shrinks (p : Reader α) : Prop :=
  ∀ ⦃bs : List UInt8⦄ ⦃a : α⦄ ⦃rest : List UInt8⦄, p bs = some (a, rest) → rest.length ≤ bs.length

theorem shrinks_pure (a : α) : Shrinks (pure a : Reader α) := by
  intro bs b rest h
  cases h
  exact Nat.le_refl _

theorem Shrinks.bind (hp : Shrinks p) (hf : ∀ a, Shrinks (f a)) : Shrinks (p >>= f) := by
  intro bs b rest h
  obtain ⟨⟨a, mid⟩, ha, hb⟩ := bind_eq_some_iff.mp h
  exact Nat.le_trans (hf a hb) (hp ha)

theorem shrinks_readBytes (n : Nat) : Shrinks (readBytes n) := by
  intro bs a rest h
  unfold readBytes at h
  split at h
  · cases h
    rw [length_drop]
    exact Nat.sub_le _ _
  · cases h

theorem shrinks_readLE (k : Nat) : Shrinks (readLE k) :=
  (shrinks_readBytes k).bind fun _ => shrinks_pure _

/-! ## What a reader can return -/

/-- Whatever `p` returns satisfies `P`. -/
def Yields (p : Reader α) (P : α → Prop) : Prop :=
  ∀ ⦃bs : List UInt8⦄ ⦃a : α⦄ ⦃rest : List UInt8⦄, p bs = some (a, rest) → P a

theorem yields_pure (ha : P a) : Yields (pure a : Reader α) P := by
  intro bs b rest h
  cases h
  exact ha

theorem yields_failure : Yields (failure : Reader α) P := nofun

theorem yields_true (p : Reader α) : Yields p fun _ => True := fun _ _ _ _ => trivial

theorem Yields.bind {Q : β → Prop} (hp : Yields p P) (hf : ∀ a, P a → Yields (f a) Q) :
    Yields (p >>= f) Q := by
  intro bs b rest h
  obtain ⟨⟨a, mid⟩, ha, hb⟩ := bind_eq_some_iff.mp h
  exact hf a (hp ha) hb

theorem yields_ite [Decidable c] {q : Reader α} (hp : c → Yields p P) (hq : ¬ c → Yields q P) :
    Yields (if c then p else q) P := by
  by_cases hc : c
  · rw [if_pos hc]
    exact hp hc
  · rw [if_neg hc]
    exact hq hc

theorem yields_readBytes (n : Nat) : Yields (readBytes n) fun bs => bs.length = n := by
  intro bs a rest h
  unfold readBytes at h
  split at h
  · rename_i hle
    cases h
    exact length_take_of_le hle
  · cases h

theorem Yields.many (hp : Yields p P) (n : Nat) :
    Yields (readMany p n) fun xs => xs.length = n ∧ ∀ x ∈ xs, P x := by
  induction n with
  | zero => exact yields_pure ⟨rfl, nofun⟩
  | succ n ih =>
    refine hp.bind fun x hx => ih.bind fun xs hxs => yields_pure ⟨?_, ?_⟩
    · rw [length_cons, hxs.1]
    · exact forall_mem_cons.mpr ⟨hx, hxs.2⟩

/-! ## Encodings without a reader -/

/-- On `dom`, the bytes of `enc`, whatever follows them, determine `view` and where they end. -/
def Determines (enc : α → List UInt8) (dom : α → Prop) (view : α → β) : Prop :=
  ∀ ⦃x y : α⦄, dom x → dom y → ∀ ⦃rest rest' : List UInt8⦄,
    enc x ++ rest = enc y ++ rest' → view x = view y ∧ rest = rest'

section

variable {γ : Type} {enc enc' : α → List UInt8} {dom : α → Prop} {view : α → β}

theorem Determines.view_eq (h : Determines enc dom view) {x y : α} (hx : dom x) (hy : dom y)
    (heq : enc x = enc y) : view x = view y :=
  (@h x y hx hy [] [] (by rw [heq])).1

/-- What can be read back is determined. -/
theorem determines_of_reads {p : Reader β} (h : ∀ x, dom x → Reads p (enc x) (view x)) :
    Determines enc dom view := by
  intro x y hx hy rest rest' heq
  have hread := h x hx rest
  rw [heq, h y hy rest'] at hread
  have hpair := Prod.ext_iff.mp (some.inj hread)
  exact ⟨hpair.1.symm, hpair.2.symm⟩

/-- Bytes that do not depend on the value determine nothing and end where they end. -/
theorem determines_const (bs : List UInt8) : Determines (fun _ : α => bs) dom fun _ => () :=
  fun _ _ _ _ _ _ heq => ⟨rfl, append_cancel_left heq⟩

/-- A field of fixed width. -/
theorem determines_of_length {k : Nat} (hlen : ∀ x, dom x → (enc x).length = k)
    (hinj : ∀ x y, dom x → dom y → enc x = enc y → view x = view y) : Determines enc dom view := by
  intro x y hx hy rest rest' heq
  have hparts := append_inj heq ((hlen x hx).trans (hlen y hy).symm)
  exact ⟨hinj x y hx hy hparts.1, hparts.2⟩

variable {view' : α → γ}

section

variable (h : Determines enc dom view)

include h

/-- One field after another. The second encoding may depend on what the first one determines. -/
theorem Determines.append (h' : ∀ x y, dom x → dom y → view x = view y → ∀ rest rest',
      enc' x ++ rest = enc' y ++ rest' → view' x = view' y ∧ rest = rest') :
    Determines (fun x => enc x ++ enc' x) dom fun x => (view x, view' x) := by
  intro x y hx hy rest rest' heq
  rw [append_assoc, append_assoc] at heq
  obtain ⟨hview, hrest⟩ := h hx hy heq
  obtain ⟨hview', hend⟩ := h' x y hx hy hview rest rest' hrest
  exact ⟨Prod.ext hview hview', hend⟩

theorem Determines.and (h' : Determines enc' dom view') :
    Determines (fun x => enc x ++ enc' x) dom fun x => (view x, view' x) :=
  h.append fun _ _ hx hy _ _ _ heq => h' hx hy heq

/-- A field that is a function of the value. -/
theorem Determines.comap (dom' : γ → Prop) (f : γ → α)
    (hdom : ∀ x, dom' x → dom (f x)) : Determines (fun x => enc (f x)) dom' fun x => view (f x) :=
  fun _ _ hx hy _ _ heq => h (hdom _ hx) (hdom _ hy) heq

/-- A view of what is determined. -/
theorem Determines.weaken (hview : ∀ x y, view x = view y → view' x = view' y) :
    Determines enc dom view' :=
  fun _ _ hx hy _ _ heq => (h hx hy heq).imp_left (hview _ _)

end

/-- Sequences of one length. The encoding of an item may depend on its position. -/
theorem determines_flatMap_zipIdx (enc : α → Nat → List UInt8)
    (h : ∀ n, Determines (fun x => enc x n) dom view) :
    ∀ {xs ys : List α}, xs.length = ys.length → (∀ x ∈ xs, dom x) → (∀ y ∈ ys, dom y) →
      ∀ (n : Nat) (rest rest' : List UInt8), ((xs.zipIdx n).flatMap fun p => enc p.1 p.2) ++ rest =
          ((ys.zipIdx n).flatMap fun p => enc p.1 p.2) ++ rest' →
        xs.map view = ys.map view ∧ rest = rest'
  | [], [], _, _, _, _, _, _, heq => ⟨rfl, heq⟩
  | x :: xs, y :: ys, hlen, hxs, hys, n, rest, rest', heq => by
    rw [zipIdx_cons, zipIdx_cons, flatMap_cons, flatMap_cons, append_assoc, append_assoc] at heq
    obtain ⟨hx, hxs⟩ := forall_mem_cons.mp hxs
    obtain ⟨hy, hys⟩ := forall_mem_cons.mp hys
    obtain ⟨hview, htail⟩ := h n hx hy heq
    obtain ⟨hviews, hend⟩ := determines_flatMap_zipIdx enc h (Nat.succ.inj hlen) hxs hys (n + 1) rest
      rest' htail
    exact ⟨by rw [map_cons, map_cons, hview, hviews], hend⟩

theorem determines_flatMap (h : Determines enc dom view) {xs ys : List α}
    (hlen : xs.length = ys.length) (hxs : ∀ x ∈ xs, dom x) (hys : ∀ y ∈ ys, dom y)
    (rest rest' : List UInt8) (heq : xs.flatMap enc ++ rest = ys.flatMap enc ++ rest') :
    xs.map view = ys.map view ∧ rest = rest' := by
  have hzip : ∀ zs : List α, ((zs.zipIdx 0).flatMap fun p => enc p.1) = zs.flatMap enc := fun zs => by
    rw [← flatMap_map, zipIdx_map_fst]
  refine determines_flatMap_zipIdx (fun x _ => enc x) (fun _ => h) hlen hxs hys 0 rest rest' ?_
  rw [hzip, hzip]
  exact heq

/-- Items that follow each other without a count: none is empty, so that the bytes say how many there
are. -/
theorem Determines.flatMap_inj (h : Determines enc dom view) (hne : ∀ x, dom x → enc x ≠ []) :
    ∀ {xs ys : List α}, (∀ x ∈ xs, dom x) → (∀ y ∈ ys, dom y) →
      xs.flatMap enc = ys.flatMap enc → xs.map view = ys.map view
  | [], [], _, _, _ => rfl
  | [], y :: _, _, hys, heq =>
    absurd (append_eq_nil_iff.mp heq.symm).1 (hne y (hys y mem_cons_self))
  | x :: _, [], hxs, _, heq =>
    absurd (append_eq_nil_iff.mp heq).1 (hne x (hxs x mem_cons_self))
  | x :: xs, y :: ys, hxs, hys, heq => by
    obtain ⟨hx, hxs⟩ := forall_mem_cons.mp hxs
    obtain ⟨hy, hys⟩ := forall_mem_cons.mp hys
    obtain ⟨hview, htail⟩ := h hx hy heq
    rw [map_cons, map_cons, hview, h.flatMap_inj hne hxs hys htail]

end

/-- A number of `k` bytes. -/
theorem determines_leBytes (k : Nat) : Determines (leBytes k) (· < 256 ^ k) (fun n : Nat => n) := by
  refine determines_of_length (k := k) (fun n _ => length_leBytes k n) fun n m hn hm heq => ?_
  have := congrArg leNat heq
  rwa [leNat_leBytes, leNat_leBytes, Nat.mod_eq_of_lt hn, Nat.mod_eq_of_lt hm] at this

/-! ## Comparing numbers by their bytes -/

/-- Fields of equal length are compared first. -/
theorem append_lt_append_iff {as xs ys : List UInt8} (hlen : as.length = bs.length) :
    as ++ xs < bs ++ ys ↔ as < bs ∨ as = bs ∧ xs < ys := by
  induction as generalizing bs with
  | nil =>
    obtain rfl := length_eq_zero_iff.mp hlen.symm
    simp
  | cons a as ih =>
    cases bs with
    | nil => cases hlen
    | cons b bs =>
      rw [cons_append, cons_append, cons_lt_cons_iff, cons_lt_cons_iff,
        ih (Nat.succ.inj hlen), List.cons.injEq]
      tauto

/-- From the highest byte on, the first difference decides. -/
theorem reverse_leBytes_lt_iff {m : Nat} (hn : n < 256 ^ k) (hm : m < 256 ^ k) :
    (leBytes k n).reverse < (leBytes k m).reverse ↔ n < m := by
  induction k generalizing n m with
  | zero =>
    rw [pow_zero, Nat.lt_one_iff] at hn hm
    subst hn hm
    simp
  | succ k ih =>
    have hn' : n / 256 < 256 ^ k := Nat.div_lt_of_lt_mul (Nat.mul_comm _ _ ▸ hn)
    have hm' : m / 256 < 256 ^ k := Nat.div_lt_of_lt_mul (Nat.mul_comm _ _ ▸ hm)
    have hhigh : (leBytes k (n / 256)).reverse = (leBytes k (m / 256)).reverse ↔ n / 256 = m / 256 := by
      rw [reverse_inj]
      exact ⟨fun h => (determines_leBytes k).view_eq hn' hm' h, fun h => by rw [h]⟩
    have hlow : [UInt8.ofNat n] < [UInt8.ofNat m] ↔ n % 256 < m % 256 := by
      rw [cons_lt_cons_iff, UInt8.lt_iff_toNat_lt, UInt8.toNat_ofNat', UInt8.toNat_ofNat']
      simp
    rw [leBytes, leBytes, reverse_cons, reverse_cons,
      append_lt_append_iff (by simp), ih hn' hm', hhigh, hlow]
    omega

end Codec
