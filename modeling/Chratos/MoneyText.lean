import Chratos.Amount
import Mathlib.Data.List.TakeWhile

/-!
# Chratos — amounts as text (`utilmoneystr.cpp`)

`FormatMoney` writes the coins and eight decimals, of which the last zeros are dropped but never
the first two. `ParseMoney` reads the coins as a string of digits and the decimals with a
multiplier that comes down to zero.
-/

namespace Chratos

open List

/-! ## Writing -/

/-- `%0*d`. The sign counts for the width. -/
def formatInt (width : Nat) (x : Int) : List Char :=
  let digits := Nat.toDigits 10 x.natAbs
  if x < 0 then '-' :: (List.replicate (width - 1 - digits.length) '0' ++ digits)
  else List.replicate (width - digits.length) '0' ++ digits

/-- Drops zeros as long as the character two before is a digit. The string is given from its end. -/
def trimZeros : List Char → List Char
  | '0' :: a :: b :: front => if b.isDigit then trimZeros (a :: b :: front) else '0' :: a :: b :: front
  | str => str

def formatMoney (n : Int) : List Char :=
  let nAbs := if 0 < n then n else int64 (-n)
  let str := formatInt 0 (nAbs.tdiv COIN) ++ '.' :: formatInt 8 (nAbs.tmod COIN)
  let str := (trimZeros str.reverse).reverse
  if n < 0 then '-' :: str else str

/-! ## Reading -/

/-- `isspace` in the C locale. -/
def isSpace (c : Char) : Bool := c.toNat = 0x20 || (0x09 ≤ c.toNat && c.toNat ≤ 0x0d)

/-- The loop over the decimals: what they are worth, and what is left of the string. -/
def parseDecimals (nMult nUnits : Int) : List Char → Int × List Char
  | [] => (nUnits, [])
  | c :: p =>
    if c.isDigit ∧ 0 < nMult then
      parseDecimals (nMult.tdiv 10) (nUnits + nMult * (c.toNat - '0'.toNat)) p
    else (nUnits, c :: p)

/-- The loop over the coins: `strWhole`, `nUnits` and what is left of the string. -/
def parseWhole (strWhole : List Char) : List Char → Option (List Char × Int × List Char)
  | [] => some (strWhole, 0, [])
  | c :: p =>
    if c = '.' then some (strWhole, parseDecimals (CENT * 10) 0 p)
    else if isSpace c then some (strWhole, 0, c :: p)
    else if !c.isDigit then none
    else parseWhole (strWhole ++ [c]) p

/-- `ParseMoney`. The string ends where its first zero byte is. -/
def parseMoney (str : List Char) : Option Int :=
  match parseWhole [] ((str.takeWhile (·.toNat ≠ 0)).dropWhile isSpace) with
  | none => none
  | some (strWhole, nUnits, p) =>
    if !p.all isSpace then none
    else if 10 < strWhole.length then none
    else if nUnits < 0 ∨ COIN < nUnits then none
    else some (int64 (Nat.ofDigitChars 10 strWhole 0 * COIN + nUnits))

/-! ## The way back -/

/-- Nothing but digits. -/
def Digits (cs : List Char) : Prop := ∀ c ∈ cs, c.isDigit = true

section

variable {c : Char} {cs w : List Char}

theorem toNat_of_isDigit (h : c.isDigit = true) : 48 ≤ c.toNat ∧ c.toNat ≤ 57 := by
  simpa [Char.isDigit, UInt32.le_iff_toNat_le] using h

/-- A digit neither ends a text nor is it a blank. -/
theorem plain_of_isDigit (h : c.isDigit = true) : c.toNat ≠ 0 ∧ isSpace c = false := by
  have hnum := toNat_of_isDigit h
  simp only [isSpace, Bool.or_eq_false_iff, Bool.and_eq_false_iff, decide_eq_false_iff_not]
  omega

theorem trimZeros_digits (h : Digits cs) :
    ∃ k front, cs = List.replicate k '0' ++ front ∧ trimZeros (cs ++ '.' :: w) = front ++ '.' :: w := by
  induction cs with
  | nil => exact ⟨0, [], rfl, by simp [trimZeros]⟩
  | cons c cs ih =>
    obtain ⟨k, front, hcs, htrim⟩ := ih (forall_mem_cons.mp h).2
    unfold trimZeros
    split
    · rename_i a b rest heq
      obtain ⟨rfl, hrest⟩ := List.cons.inj heq
      rw [← hrest]
      split
      · exact ⟨k + 1, front, by rw [hcs]; rfl, htrim⟩
      · exact ⟨0, '0' :: cs, rfl, rfl⟩
    · exact ⟨0, c :: cs, rfl, rfl⟩

theorem formatInt_spec {width : Nat} {x : Int} (hx : 0 ≤ x) :
    Digits (formatInt width x) ∧ Nat.ofDigitChars 10 (formatInt width x) 0 = x.toNat ∧
      width ≤ (formatInt width x).length ∧
      ∀ k, 0 < k → width ≤ k → x.toNat < 10 ^ k → (formatInt width x).length ≤ k := by
  have heq : formatInt width x = List.replicate (width - (Nat.toDigits 10 x.toNat).length) '0' ++
      Nat.toDigits 10 x.toNat := by
    rw [formatInt, if_neg (not_lt.mpr hx), show x.natAbs = x.toNat by omega]
  rw [heq, length_append, length_replicate]
  refine ⟨forall_mem_append.mpr ⟨fun c hc => ?_, fun c hc => ?_⟩, ?_, by omega, ?_⟩
  · rw [eq_of_mem_replicate hc]
    rfl
  · exact Nat.isDigit_of_mem_toDigits (by decide) (by decide) hc
  · simp [Nat.ofDigitChars_append, Nat.ofDigitChars_replicate_zero]
  · intro k hk hwidth hlt
    have := (Nat.length_toDigits_le_iff (b := 10) (by decide) hk).mpr hlt
    omega

/-- The decimals that are written, with the zeros that are not. -/
theorem formatMoney_eq {n : Int} (hn : 0 ≤ n) : ∃ front k,
    formatMoney n = formatInt 0 (n / COIN) ++ '.' :: front ∧ Digits front ∧
      front.length + k = 8 ∧ 10 ^ k * Nat.ofDigitChars 10 front 0 = (n % COIN).toNat := by
  obtain ⟨hdigits, hvalue, hge, hle⟩ := @formatInt_spec 8 (n % COIN) (Int.emod_nonneg n (by decide))
  have hlt : n % COIN < 10 ^ 8 := Int.emod_lt_of_pos n (by decide)
  have hlen := hle 8 (by decide) (by decide) (by omega)
  have habs : (if 0 < n then n else int64 (-n)) = n := by
    split
    · rfl
    · obtain rfl : n = 0 := by omega
      rfl
  obtain ⟨k, front, hcut, htrim⟩ := @trimZeros_digits (formatInt 8 (n % COIN)).reverse
    (formatInt 0 (n / COIN)).reverse fun c hc => hdigits c (mem_reverse.mp hc)
  rw [reverse_eq_iff, reverse_append, reverse_replicate] at hcut
  rw [hcut] at hdigits hvalue hge hlen
  refine ⟨front.reverse, k, ?_, (forall_mem_append.mp hdigits).1, ?_, ?_⟩
  · simp only [formatMoney, habs, Int.tdiv_eq_ediv_of_nonneg hn, Int.tmod_eq_emod_of_nonneg hn]
    rw [if_neg (not_lt.mpr hn), reverse_append, reverse_cons, append_assoc, singleton_append, htrim]
    simp
  · rw [length_append, length_replicate] at hge hlen
    omega
  · rw [← hvalue, Nat.ofDigitChars_append, Nat.ofDigitChars_replicate_zero]

theorem parseDecimals_digits {k : Nat} (nUnits : Int) (h : Digits cs) :
    parseDecimals ((10 ^ (cs.length + k) / 10 : Nat) : Int) nUnits cs =
      (nUnits + (10 ^ k * Nat.ofDigitChars 10 cs 0 : Nat), []) := by
  induction cs generalizing nUnits with
  | nil => simp [parseDecimals]
  | cons c cs ih =>
    obtain ⟨hc, hcs⟩ := forall_mem_cons.mp h
    have hnum := toNat_of_isDigit hc
    have hmult : 10 ^ ((c :: cs).length + k) / 10 = 10 ^ (cs.length + k) := by
      rw [length_cons, Nat.succ_add, Nat.pow_succ, Nat.mul_div_cancel _ (by decide)]
    have hpos : 0 < 10 ^ (cs.length + k) := Nat.pow_pos (by decide)
    have hvalue : Nat.ofDigitChars 10 (c :: cs) 0 =
        10 ^ cs.length * (c.toNat - '0'.toNat) + Nat.ofDigitChars 10 cs 0 := by
      rw [Nat.ofDigitChars_cons, Nat.ofDigitChars_eq_ofDigitChars_zero, mul_zero, zero_add]
    have hdigit : (c.toNat : Int) - '0'.toNat = (c.toNat - '0'.toNat : Nat) :=
      (Int.natCast_sub hnum.1).symm
    have hnext : ((10 ^ (cs.length + k) : Nat) : Int).tdiv 10 = (10 ^ (cs.length + k) / 10 : Nat) := rfl
    rw [hmult, parseDecimals, if_pos ⟨hc, by omega⟩, hdigit, ← Int.natCast_mul, hnext, ih _ hcs, hvalue,
      mul_add, ← mul_assoc, ← pow_add, add_comm k, Int.natCast_add, add_assoc]

theorem parseWhole_digits (h : Digits cs) (strWhole : List Char) :
    parseWhole strWhole (cs ++ '.' :: w) = some (strWhole ++ cs, parseDecimals (CENT * 10) 0 w) := by
  induction cs generalizing strWhole with
  | nil => simp [parseWhole]
  | cons c cs ih =>
    obtain ⟨hc, hcs⟩ := forall_mem_cons.mp h
    have hnum := toNat_of_isDigit hc
    have hdot : c ≠ '.' := by
      rintro rfl
      exact absurd hnum (by decide)
    rw [cons_append, parseWhole, if_neg hdot, (plain_of_isDigit hc).2, hc, ih hcs]
    simp

end

/-- **Money text round trip.** -/
theorem parseMoney_formatMoney {n : Int} (hn : 0 ≤ n) (hlt : n < 10 ^ 10 * COIN) :
    parseMoney (formatMoney n) = some n := by
  obtain ⟨front, k, hwrite, hfront, hlen, hvalue⟩ := formatMoney_eq hn
  have hquot : 0 ≤ n / COIN := Int.ediv_nonneg hn (by decide)
  have hrem : 0 ≤ n % COIN := Int.emod_nonneg n (by decide)
  have hcoin : n % COIN < COIN := Int.emod_lt_of_pos n (by decide)
  have hbound : n / COIN < 10 ^ 10 := Int.ediv_lt_of_lt_mul (by decide) hlt
  obtain ⟨hwhole, hcoins, -, hwidth⟩ := @formatInt_spec 0 (n / COIN) hquot
  have hlength := hwidth 10 (by decide) (by decide) (by omega)
  have hunits := parseDecimals_digits (k := k) 0 hfront
  rw [hlen, hvalue] at hunits
  -- neither zero bytes nor blanks are in the text
  have hplain : ∀ c ∈ formatMoney n, c.toNat ≠ 0 ∧ isSpace c = false := by
    rw [hwrite]
    exact forall_mem_append.mpr ⟨fun c hc => plain_of_isDigit (hwhole c hc),
      forall_mem_cons.mpr ⟨by decide, fun c hc => plain_of_isDigit (hfront c hc)⟩⟩
  have hclean : ((formatMoney n).takeWhile (·.toNat ≠ 0)).dropWhile isSpace = formatMoney n := by
    rw [takeWhile_eq_self_iff.mpr fun c hc => decide_eq_true (hplain c hc).1, dropWhile_eq_self_iff]
    intro hpos
    rw [(hplain _ (getElem_mem hpos)).2]
    decide
  have hread : parseWhole [] (formatMoney n) = some (formatInt 0 (n / COIN), n % COIN, []) := by
    have hmult : CENT * 10 = (10 ^ 8 / 10 : Nat) := by decide
    rw [hwrite, parseWhole_digits hwhole, hmult, hunits, nil_append, zero_add,
      Int.toNat_of_nonneg hrem]
  unfold parseMoney
  rw [hclean, hread]
  dsimp only
  rw [if_neg (by simp), if_neg (by omega), if_neg (by omega), hcoins, Int.toNat_of_nonneg hquot,
    mul_comm, Int.mul_ediv_add_emod, int64_eq_self (by omega) (hlt.trans (by decide))]

/-- An amount with decimals of its own. -/
theorem parseMoney_formatMoney_half : formatMoney 150000000 = ['1', '.', '5', '0'] ∧
    parseMoney (formatMoney 150000000) = some 150000000 :=
  ⟨by decide, parseMoney_formatMoney (by decide) (by decide)⟩

end Chratos
