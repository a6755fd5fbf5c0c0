import Chratos.Script.Interpreter
import Mathlib.Data.List.GetD

/-!
# Chratos — signature encodings (`script/interpreter.cpp`)

`IsValidSignatureEncoding` finds the parts of a signature by the lengths written in it.
`checkedSignatureEncoding` is the same function with every read held against the size of the vector,
`IsDerSignature` the format its comment describes.
-/

namespace Chratos

open List Option

section

variable (sig : Valtype) (pos len : Nat)

/-- The checks on the integer of `len` bytes whose tag is at `pos`; `none` is a read outside. -/
def checkedInteger : Option Bool := do
  if (← sig[pos]?) ≠ 0x02 then return false
  if len = 0 then return false
  if (← sig[pos + 2]?) &&& 0x80 ≠ 0 then return false
  if 1 < len then
    if (← sig[pos + 2]?) = 0 then return (← sig[pos + 3]?) &&& 0x80 ≠ 0
  return true

/-- `IsValidSignatureEncoding`; `none` is a read outside the vector. -/
def checkedSignatureEncoding : Option Bool := do
  if sig.length < 9 then return false
  if 73 < sig.length then return false
  if (← sig[0]?) ≠ 0x30 then return false
  if (← sig[1]?).toNat ≠ sig.length - 3 then return false
  let lenR := (← sig[3]?).toNat
  if sig.length ≤ 5 + lenR then return false
  let lenS := (← sig[5 + lenR]?).toNat
  if lenR + lenS + 7 ≠ sig.length then return false
  if !(← checkedInteger sig 2 lenR) then return false
  checkedInteger sig (lenR + 4) lenS

/-- A number that is there, not negative, and has no zero byte in front without need. -/
def IsDerUnsigned (v : Valtype) : Prop :=
  v ≠ [] ∧ v.getD 0 0 &&& 0x80 = 0 ∧ (1 < v.length → v.getD 0 0 = 0 → v.getD 1 0 &&& 0x80 ≠ 0)

/-- `0x30 [total-length] 0x02 [R-length] [R] 0x02 [S-length] [S] [sighash]`. -/
def derSignature (r s : Valtype) (hashType : UInt8) : Valtype :=
  [0x30, UInt8.ofNat (r.length + s.length + 4), 0x02, UInt8.ofNat r.length] ++ r ++
    [0x02, UInt8.ofNat s.length] ++ s ++ [hashType]

def IsDerSignature : Prop :=
  9 ≤ sig.length ∧ sig.length ≤ 73 ∧
    ∃ r s hashType, sig = derSignature r s hashType ∧ IsDerUnsigned r ∧ IsDerUnsigned s

/-- What the code asks of one integer. -/
def IntegerAt : Prop :=
  sig.getD pos 0 = 0x02 ∧ len ≠ 0 ∧ sig.getD (pos + 2) 0 &&& 0x80 = 0 ∧
    ¬ (1 < len ∧ sig.getD (pos + 2) 0 = 0 ∧ sig.getD (pos + 3) 0 &&& 0x80 = 0)

/-- What it asks of the vector. -/
def EncodingChecks : Prop :=
  let lenR := (sig.getD 3 0).toNat
  let lenS := (sig.getD (5 + lenR) 0).toNat
  9 ≤ sig.length ∧ sig.length ≤ 73 ∧ sig.getD 0 0 = 0x30 ∧ (sig.getD 1 0).toNat = sig.length - 3 ∧
    5 + lenR < sig.length ∧ lenR + lenS + 7 = sig.length ∧
    IntegerAt sig 2 lenR ∧ IntegerAt sig (lenR + 4) lenS

theorem isValidSignatureEncoding_iff :
    isValidSignatureEncoding sig = true ↔ EncodingChecks sig := by
  simp only [isValidSignatureEncoding, EncodingChecks, IntegerAt, Bool.if_false_left, Bool.and_eq_true,
    Bool.not_eq_true', decide_eq_false_iff_not, not_lt, not_not, ne_eq, and_true, not_le]
  tauto

theorem read_eq {i : Nat} (hi : i < sig.length) : sig[i]? = some (sig.getD i 0) := by
  rw [getElem?_eq_getElem hi, getD_eq_getElem _ _ hi]

end

theorem checkedInteger_eq {sig : Valtype} (pos len : Nat) (hlt : pos + len + 2 < sig.length) :
    ∃ b, checkedInteger sig pos len = some b ∧ (b = true ↔ IntegerAt sig pos len) := by
  unfold checkedInteger IntegerAt
  simp only [read_eq sig (i := pos) (by omega), bind_eq_bind, bind_some]
  by_cases h0 : len = 0
  · exact ⟨false, by simp [h0], by simp [h0]⟩
  simp only [read_eq sig (i := pos + 2) (by omega), bind_some]
  by_cases h1 : 1 < len
  · simp only [read_eq sig (i := pos + 3) (by omega), bind_some]
    split_ifs <;> exact ⟨_, rfl, by simp_all⟩
  · split_ifs <;> exact ⟨_, rfl, by simp_all⟩

/-- No read goes past the end: the checks on the lengths come before the reads they guard. -/
theorem checkedSignatureEncoding_eq (sig : Valtype) :
    ∃ b, checkedSignatureEncoding sig = some b ∧ (b = true ↔ EncodingChecks sig) := by
  unfold checkedSignatureEncoding EncodingChecks
  by_cases h9 : sig.length < 9
  · exact ⟨false, if_pos h9, by simp; omega⟩
  by_cases h73 : 73 < sig.length
  · exact ⟨false, by rw [if_neg h9, if_pos h73]; rfl, by simp; omega⟩
  simp only [if_neg h9, if_neg h73, read_eq sig (i := 0) (by omega),
    read_eq sig (i := 1) (by omega), read_eq sig (i := 3) (by omega),
    Option.bind_eq_bind, Option.bind_some, Option.pure_def]
  generalize (sig.getD 3 0).toNat = lenR
  by_cases hlenR : sig.length ≤ 5 + lenR
  · exact ⟨false, by simp [hlenR], by simp; omega⟩
  simp only [if_neg hlenR, read_eq sig (i := 5 + lenR) (by omega), bind_some]
  generalize (sig.getD (5 + lenR) 0).toNat = lenS
  by_cases hlen : lenR + lenS + 7 = sig.length
  · obtain ⟨bR, hR, hRiff⟩ := checkedInteger_eq 2 lenR (show _ < sig.length by omega)
    obtain ⟨bS, hS, hSiff⟩ := checkedInteger_eq (lenR + 4) lenS (show _ < sig.length by omega)
    grind
  · exact ⟨false, by simp [hlen], by simp [hlen]⟩

theorem getD_append_add (pre post : Valtype) (i : Nat) :
    (pre ++ post).getD (pre.length + i) 0 = post.getD i 0 := by
  rw [getD_append_right _ _ _ _ (Nat.le_add_right _ _), Nat.add_sub_cancel_left]

/-- What the code asks of an integer is asked of its bytes. -/
theorem integerAt_append (pre v post : Valtype) (tag l : UInt8) :
    IntegerAt (pre ++ (tag :: l :: v ++ post)) pre.length v.length ↔ tag = 0x02 ∧ IsDerUnsigned v := by
  unfold IntegerAt IsDerUnsigned
  rcases v with _ | ⟨x, _ | ⟨y, v⟩⟩ <;> simp

section

variable {a b c d e f g : UInt8} {r s : Valtype}

theorem getD_lenS : ([a, b] ++ (c :: d :: r ++ (e :: f :: s ++ [g]))).getD (5 + r.length) 0 = f := by
  have h := getD_append_add ([a, b] ++ c :: d :: r) (e :: f :: s ++ [g]) 1
  rwa [append_assoc, show ([a, b] ++ c :: d :: r).length + 1 = 5 + r.length by simp; omega] at h

/-- The checks on a vector that is cut where its lengths say. -/
theorem encodingChecks_parts (hr : d.toNat = r.length) (hs : f.toNat = s.length) :
    EncodingChecks ([a, b] ++ (c :: d :: r ++ (e :: f :: s ++ [g]))) ↔
      9 ≤ r.length + s.length + 7 ∧ r.length + s.length + 7 ≤ 73 ∧ a = 0x30 ∧
        b.toNat = r.length + s.length + 4 ∧ (c = 0x02 ∧ IsDerUnsigned r) ∧ e = 0x02 ∧
          IsDerUnsigned s := by
  have hlen :
    ([a, b] ++ (c :: d :: r ++ (e :: f :: s ++ [g]))).length = r.length + s.length + 4 + 3 := by
    simp
    omega
  have hpre : ([a, b] ++ c :: d :: r).length = r.length + 4 := by simp
  rw [← integerAt_append [a, b] r (e :: f :: s ++ [g]) c d,
    ← integerAt_append ([a, b] ++ c :: d :: r) s [g] e f, append_assoc, hpre, EncodingChecks, hlen,
    Nat.add_sub_cancel]
  have h3 : ([a, b] ++ (c :: d :: r ++ (e :: f :: s ++ [g]))).getD 3 0 = d := rfl
  rw [h3, hr, getD_lenS, hs]
  constructor
  · rintro ⟨hmin, hmax, h0, h1, -, -, hR, hS⟩
    exact ⟨hmin, hmax, h0, h1, hR, hS⟩
  · rintro ⟨hmin, hmax, h0, h1, hR, hS⟩
    exact ⟨hmin, hmax, h0, h1, by omega, rfl, hR, hS⟩

end

/-- Every vector that is long enough can be cut. -/
theorem exists_parts {m n : Nat} {sig : Valtype} (h : m + n + 7 = sig.length) :
    ∃ a b c d r e f s g, sig = [a, b] ++ (c :: d :: r ++ (e :: f :: s ++ [g])) ∧
      r.length = m ∧ s.length = n := by
  obtain _ | ⟨a, _ | ⟨b, _ | ⟨c, _ | ⟨d, rest⟩⟩⟩⟩ := sig <;>
    simp only [length_nil, length_cons] at h
  iterate 4 omega
  have hrest := take_append_drop m rest
  have hlen : (rest.drop m).length = n + 3 := by
    rw [length_drop]
    omega
  generalize rest.drop m = t at hrest hlen
  obtain _ | ⟨e, _ | ⟨f, t⟩⟩ := t <;> simp only [length_nil, length_cons] at hlen
  iterate 2 omega
  obtain rfl | ⟨s, g, rfl⟩ := eq_nil_or_concat t
  · cases hlen
  · rw [length_concat] at hlen
    refine ⟨a, b, c, d, rest.take m, e, f, s, g, ?_, length_take_of_le (by omega), by omega⟩
    rw [concat_eq_append] at hrest
    exact congrArg ([a, b, c, d] ++ ·) hrest.symm

theorem encodingChecks_iff (sig : Valtype) : EncodingChecks sig ↔ IsDerSignature sig := by
  have hbyte : ∀ {n : Nat}, n ≤ 73 → (UInt8.ofNat n).toNat = n := fun h => by
    rw [UInt8.toNat_ofNat', Nat.mod_eq_of_lt (by omega)]
  constructor
  · intro h
    obtain ⟨hmin, hmax, -, -, -, hlen, -⟩ := id h
    obtain ⟨a, b, c, d, r, e, f, s, g, rfl, hr, hs⟩ := exists_parts hlen
    have hd : d.toNat = r.length := hr.symm
    rw [← hr] at hs
    have hf : f.toNat = s.length := by rw [hs, getD_lenS]
    obtain ⟨-, hle, rfl, hb, ⟨rfl, hR⟩, rfl, hS⟩ := (encodingChecks_parts hd hf).mp h
    refine ⟨hmin, hmax, r, s, g, ?_, hR, hS⟩
    have heq : ∀ {x : UInt8} {n : Nat}, x.toNat = n → x = UInt8.ofNat n := fun h => by
      rw [← h, UInt8.ofNat_toNat]
    rw [heq hb, heq hd, heq hf]
    simp [derSignature]
  · rintro ⟨hmin, hmax, r, s, g, rfl, hr, hs⟩
    have hlen : (derSignature r s g).length = r.length + s.length + 7 := by
      simp [derSignature]
      omega
    rw [hlen] at hmin hmax
    have h :=
      (encodingChecks_parts (g :=
        g) (hbyte (n := r.length) (by omega)) (hbyte (n := s.length) (by omega))).mpr
      ⟨hmin, hmax, rfl, hbyte (by omega), ⟨rfl, hr⟩, rfl, hs⟩
    simpa [derSignature] using h

/-- `IsValidSignatureEncoding` reads within the vector, and accepts strict DER with one more byte. -/
theorem signatureEncoding_recognised (sig : Valtype) :
    checkedSignatureEncoding sig = some (isValidSignatureEncoding sig) ∧
      (isValidSignatureEncoding sig = true ↔ IsDerSignature sig) := by
  have hiff := isValidSignatureEncoding_iff sig
  obtain ⟨b, hb, hbiff⟩ := checkedSignatureEncoding_eq sig
  refine ⟨?_, hiff.trans (encodingChecks_iff sig)⟩
  rw [hb, Bool.eq_iff_iff.mpr (hbiff.trans hiff.symm)]

end Chratos
