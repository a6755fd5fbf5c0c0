import Chratos.Primitives.Transaction

/-!
# Chratos — outputs on disk (`compressor.h`, `compressor.cpp`)

The coin database and the undo files store an output as a compressed amount and a compressed
script. Amounts lose their trailing zeros to an exponent; scripts of three standard forms are
replaced by a tag and the bytes that vary, and every other script is stored behind its length.
-/

namespace Chratos

open Codec List Option CTxOut

variable {n : Nat} {front back script : List UInt8}

/-! ## Amounts -/

/-- The loop that moves trailing zeros to the exponent; `fuel` is what is left of nine. -/
def stripZeros : Nat → Nat → Nat → Nat × Nat
  | 0, n, e => (n, e)
  | fuel + 1, n, e => if n % 10 = 0 then stripZeros fuel (n / 10) (e + 1) else (n, e)

def compressAmount (n : Nat) : Nat :=
  if n = 0 then 0
  else
    let (n, e) := stripZeros 9 n 0
    if e < 9 then (1 + (n / 10 * 9 + n % 10 - 1) * 10 + e) % 2 ^ 64
    else (1 + (n - 1) * 10 + 9) % 2 ^ 64

def decompressAmount (x : Nat) : Nat :=
  if x = 0 then 0
  else
    let x := x - 1
    let e := x % 10
    let x := x / 10
    let n := if e < 9 then x / 9 * 10 + (x % 9 + 1) else x + 1
    n * 10 ^ e % 2 ^ 64

/-- What the two functions compute where no operation exceeds 64 bits. -/
def compressExact (n : Nat) : Nat :=
  if n = 0 then 0
  else
    let (n, e) := stripZeros 9 n 0
    if e < 9 then 1 + (n / 10 * 9 + n % 10 - 1) * 10 + e else 1 + (n - 1) * 10 + 9

@[inherit_doc compressExact]
def decompressExact (x : Nat) : Nat :=
  if x = 0 then 0
  else
    let x := x - 1
    let e := x % 10
    let x := x / 10
    (if e < 9 then x / 9 * 10 + (x % 9 + 1) else x + 1) * 10 ^ e

theorem compressAmount_eq (n : Nat) : compressAmount n = compressExact n % 2 ^ 64 := by
  unfold compressAmount compressExact
  split
  · rfl
  · dsimp only
    split <;> rfl

theorem decompressAmount_eq (x : Nat) : decompressAmount x = decompressExact x % 2 ^ 64 := by
  unfold decompressAmount decompressExact
  split <;> rfl

/-- What the loop leaves: the same amount, and a last digit unless the exponent is full. -/
theorem stripZeros_spec (fuel n e : Nat) :
    (stripZeros fuel n e).1 * 10 ^ (stripZeros fuel n e).2 = n * 10 ^ e ∧
      e ≤ (stripZeros fuel n e).2 ∧ (stripZeros fuel n e).2 ≤ e + fuel ∧
      ((stripZeros fuel n e).2 < e + fuel → (stripZeros fuel n e).1 % 10 ≠ 0) := by
  induction fuel generalizing n e with
  | zero => simp [stripZeros]
  | succ fuel ih =>
    rw [stripZeros]
    split
    · rename_i hzero
      obtain ⟨hval, hge, hle, hdigit⟩ := ih (n / 10) (e + 1)
      have hn : n / 10 * 10 ^ (e + 1) = n * 10 ^ e := by
        have h10 : n / 10 * 10 = n := by omega
        rw [pow_succ', ← mul_assoc, h10]
      refine ⟨by rw [hval, hn], by omega, by omega, fun hlt => hdigit (by omega)⟩
    · rename_i hdigit
      exact ⟨rfl, le_rfl, by omega, fun _ => hdigit⟩

variable {o : CTxOut}

/-- The compressed amount, and what it is the compressed form of. -/
theorem exists_compressExact (hpos : n ≠ 0) : ∃ m e, 0 < m ∧ m * 10 ^ e = n ∧
      (e < 9 ∧ m % 10 ≠ 0 ∧ compressExact n = 1 + (m / 10 * 9 + m % 10 - 1) * 10 + e ∨
        e = 9 ∧ compressExact n = 1 + (m - 1) * 10 + 9) := by
  obtain ⟨hval, -, hle, hdigit⟩ := stripZeros_spec 9 n 0
  rw [compressExact, if_neg hpos]
  generalize stripZeros 9 n 0 = me at hval hle hdigit ⊢
  obtain ⟨m, e⟩ := me
  rw [pow_zero, mul_one] at hval
  refine ⟨m, e, pos_of_ne_zero fun hm => hpos (by rw [← hval, hm, zero_mul]), hval, ?_⟩
  by_cases he : e < 9
  · exact .inl ⟨he, hdigit he, if_pos he⟩
  · exact .inr ⟨by omega, if_neg he⟩

theorem decompressExact_compressExact (n : Nat) : decompressExact (compressExact n) = n := by
  by_cases hpos : n = 0
  · rw [hpos]
    rfl
  · obtain ⟨m, e, hm, hval, ⟨he, hdigit, hx⟩ | ⟨rfl, hx⟩⟩ := exists_compressExact hpos
    all_goals rw [hx, decompressExact, if_neg (by omega)]
    · have he' : (1 + (m / 10 * 9 + m % 10 - 1) * 10 + e - 1) % 10 = e := by omega
      have hquot : (1 + (m / 10 * 9 + m % 10 - 1) * 10 + e - 1) / 10 = m / 10 * 9 + m % 10 - 1 := by
        omega
      have hback : (m / 10 * 9 + m % 10 - 1) / 9 * 10 + ((m / 10 * 9 + m % 10 - 1) % 9 + 1) = m := by
        omega
      simp only [he', hquot, he, if_true, hback, hval]
    · have he' : (1 + (m - 1) * 10 + 9 - 1) % 10 = 9 := by omega
      have hback : (1 + (m - 1) * 10 + 9 - 1) / 10 + 1 = m := by omega
      simp only [he', lt_irrefl, if_false, hback, hval]

/-- The compressed form has at most one digit more. -/
theorem compressExact_le (n : Nat) : compressExact n ≤ 10 * n := by
  by_cases hpos : n = 0
  · rw [hpos]
    rfl
  · obtain ⟨m, e, hm, hval, hx⟩ := exists_compressExact hpos
    have hmle : m ≤ n := hval ▸ Nat.le_mul_of_pos_right m (by positivity)
    omega

/-- **Amounts round trip.** Every amount of money is read back as it was. -/
theorem decompressAmount_compressAmount (hn : (n : Int) ≤ MAX_MONEY) :
    decompressAmount (compressAmount n) = n := by
  have hle := compressExact_le n
  rw [max_money_eq] at hn
  rw [compressAmount_eq, Nat.mod_eq_of_lt (by omega), decompressAmount_eq,
    decompressExact_compressExact, Nat.mod_eq_of_lt (by omega)]

/-- **No operation exceeds 64 bits** on the way: before they are cut to that size, the compressed amount
and the amount read back from it are the largest numbers that occur. -/
theorem compressAmount_roundtrip (hn : (n : Int) ≤ MAX_MONEY) :
    (compressExact n < 2 ^ 64 ∧ compressAmount n = compressExact n) ∧
      (decompressExact (compressAmount n) < 2 ^ 64 ∧ decompressAmount (compressAmount n) = n) ∧
      ∀ x, x = compressAmount n → compressAmount (decompressAmount x) = x := by
  have hback := decompressAmount_compressAmount hn
  have hle := compressExact_le n
  rw [max_money_eq] at hn
  have heq : compressAmount n = compressExact n := by
    rw [compressAmount_eq, Nat.mod_eq_of_lt (by omega)]
  refine ⟨⟨by omega, heq⟩, ⟨?_, hback⟩, fun x hx => by rw [hx, hback]⟩
  rw [heq, decompressExact_compressExact]
  omega

theorem compressAmount_roundtrip_coin : ((100000000 : Nat) : Int) ≤ MAX_MONEY ∧
      decompressAmount (compressAmount 100000000) = 100000000 :=
  have hn : ((100000000 : Nat) : Int) ≤ MAX_MONEY := by decide
  ⟨hn, (compressAmount_roundtrip hn).2.1.2⟩

theorem compressAmount_lt (n : Nat) : compressAmount n < 2 ^ 64 := by
  unfold compressAmount
  split
  · norm_num
  · dsimp only
    split <;> exact Nat.mod_lt _ (by norm_num)

/-! ## Scripts -/

/-- Public keys, as far as the compressor asks: which uncompressed keys are points of the curve,
and the point with a given first coordinate and parity. A valid key is found again from its
compressed form. -/
structure PubKeys where
  isFullyValid : List UInt8 → Bool
  decompress : List UInt8 → Option (List UInt8)
  decompress_eq : ∀ x y : List UInt8, x.length = 32 → y.length = 32 →
    isFullyValid (0x04 :: (x ++ y)) = true →
    decompress ((0x02 ||| (y.getLastD 0 &&& 0x01)) :: x) = some (0x04 :: (x ++ y))

/-- No key is a point. -/
def noKeys : PubKeys where
  isFullyValid := fun _ => false
  decompress := fun _ => none
  decompress_eq := nofun

/-- The `n` bytes between two fixed parts, when the script consists of nothing else. -/
def framed (front back : List UInt8) (n : Nat) (script : CScript) : Option (List UInt8) :=
  if script.length = front.length + n + back.length ∧ script.take front.length = front ∧
      script.drop (front.length + n) = back then
    some ((script.drop front.length).take n)
  else none

def isToKeyID : CScript → Option (List UInt8) :=
  framed [OP_DUP, OP_HASH160, 20] [OP_EQUALVERIFY, OP_CHECKSIG] 20

def isToScriptID : CScript → Option (List UInt8) :=
  framed [OP_HASH160, 20] [OP_EQUAL] 20

section

variable (keys : PubKeys) (script : CScript)

/-- A compressed key, or an uncompressed one that is a point. -/
def isToPubKey : Option (List UInt8) :=
  ((framed [33] [OP_CHECKSIG] 33 script).filter fun key =>
      key.head? = some 0x02 ∨ key.head? = some 0x03).or
    ((framed [65] [OP_CHECKSIG] 65 script).filter fun key =>
      key.head? = some 0x04 ∧ keys.isFullyValid key)

/-- `Compress`: the short form of a script of one of the three kinds. -/
def compressScript : Option (List UInt8) :=
  match isToKeyID script with
  | some hash => some (0x00 :: hash)
  | none =>
    match isToScriptID script with
    | some hash => some (0x01 :: hash)
    | none =>
      match isToPubKey keys script with
      | some (0x04 :: xy) => some ((0x04 ||| (xy.getLastD 0 &&& 0x01)) :: xy.take 32)
      | pubkey => pubkey

def getSpecialSize (nSize : Nat) : Nat :=
  if nSize ≤ 1 then 20 else if nSize ≤ 5 then 32 else 0

/-- `Decompress`; a key that is no point leaves the script empty. -/
def decompressScript (nSize : Nat) (vch : List UInt8) : CScript :=
  match nSize with
  | 0 => [OP_DUP, OP_HASH160, 20] ++ vch ++ [OP_EQUALVERIFY, OP_CHECKSIG]
  | 1 => [OP_HASH160, 20] ++ vch ++ [OP_EQUAL]
  | 2 => [33] ++ (0x02 :: vch) ++ [OP_CHECKSIG]
  | 3 => [33] ++ (0x03 :: vch) ++ [OP_CHECKSIG]
  | n =>
    match keys.decompress (UInt8.ofNat (n - 2) :: vch) with
    | some pubkey => [65] ++ pubkey ++ [OP_CHECKSIG]
    | none => []

def nSpecialScripts : Nat := 6

def serScript : List UInt8 :=
  match compressScript keys script with
  | some compr => compr
  | none => writeVarInt (script.length + nSpecialScripts : Nat) ++ script

end

/-- A script beyond the limit is skipped, and an unspendable one taken in its place. -/
def unserLongScript (nSize : Nat) : Reader CScript := do
  let script ← readBytes nSize
  pure (if MAX_SCRIPT_SIZE < nSize then [OP_RETURN] else script)

def unserScript (keys : PubKeys) : Reader CScript := do
  let nSize ← readVarInt
  if nSize < nSpecialScripts then do
    let vch ← readBytes (getSpecialSize nSize)
    pure (decompressScript keys nSize vch)
  else unserLongScript (nSize - nSpecialScripts)

theorem framed_eq_some {body : List UInt8} (h : framed front back n script = some body) :
    script = front ++ body ++ back ∧ body.length = n := by
  unfold framed at h
  split at h
  · rename_i hframe
    obtain ⟨hlen, hfront, hback⟩ := hframe
    injection h with h
    have hdrop : script.drop (front.length + n) = (script.drop front.length).drop n := by
      rw [drop_drop]
    refine ⟨?_, ?_⟩
    · calc script = script.take front.length ++ script.drop front.length :=
            (take_append_drop _ _).symm
        _ = front ++ ((script.drop front.length).take n ++ (script.drop front.length).drop n) := by
            rw [hfront, take_append_drop]
        _ = front ++ body ++ back := by
            rw [← hdrop, hback, h, append_assoc]
    · rw [← h, length_take, length_drop]
      omega
  · cases h

theorem reads_readVarInt_digit {b : UInt8} (hb : b.toNat < 128) : Reads readVarInt [b] b.toNat := by
  intro rest
  have hmod : b.toNat % 128 = b.toNat := Nat.mod_eq_of_lt hb
  simp only [readVarInt, cons_append, nil_append, readVarIntLoop]
  rw [if_neg (by omega), hmod, zero_mul, zero_add]

section

variable {keys : PubKeys} {vch : List UInt8}

/-- A short form is read by its tag. -/
theorem reads_unserScript_special (keys : PubKeys) (tag : UInt8) (htag : tag.toNat < 6)
    (hlen : vch.length = getSpecialSize tag.toNat) :
    Reads (unserScript keys) (tag :: vch) (decompressScript keys tag.toNat vch) := by
  have hvch := (reads_readBytes hlen).map (decompressScript keys tag.toNat)
  have hsmall : tag.toNat < nSpecialScripts := htag
  refine (reads_readVarInt_digit (b := tag) (by omega)).bind ?_
  rw [if_pos hsmall]
  exact hvch

variable {script : CScript}

/-- The two kinds of keys. -/
theorem isToPubKey_eq_some {key : List UInt8} (h : isToPubKey keys script = some key) :
    (script = [33] ++ key ++ [OP_CHECKSIG] ∧ ∃ tag x, key = tag :: x ∧ x.length = 32 ∧
      (tag = 0x02 ∨ tag = 0x03)) ∨
    (script = [65] ++ key ++ [OP_CHECKSIG] ∧ keys.isFullyValid key = true ∧
      ∃ xy, key = 0x04 :: xy ∧ xy.length = 64) := by
  rw [isToPubKey, or_eq_some_iff, filter_eq_some_iff, filter_eq_some_iff] at h
  rcases h with ⟨hframe, htag⟩ | ⟨-, hframe, htag⟩
  all_goals
    obtain ⟨hscript, hlen⟩ := framed_eq_some hframe
    obtain ⟨tag, x, rfl⟩ := exists_of_length_succ _ hlen
  · exact .inl ⟨hscript, tag, x, rfl, by simpa using hlen, by simpa using htag⟩
  · simp only [head?_cons, some.injEq, decide_eq_true_eq] at htag
    obtain ⟨rfl, hvalid⟩ := htag
    exact .inr ⟨hscript, hvalid, x, rfl, by simpa using hlen⟩

theorem parity_eq (b : UInt8) : b &&& 0x01 = 0 ∨ b &&& 0x01 = 1 := by
  have hmod : (b &&& 0x01).toNat = b.toNat % 2 := by
    exact Nat.and_one_is_mod b.toNat
  rcases Nat.mod_two_eq_zero_or_one b.toNat with h | h
  · exact .inl (UInt8.toNat_inj.mp (hmod.trans h))
  · exact .inr (UInt8.toNat_inj.mp (hmod.trans h))

theorem decompressScript_point {pubkey : List UInt8} (n : Nat)
    (h : keys.decompress (UInt8.ofNat (n + 2) :: vch) = some pubkey) :
    decompressScript keys (n + 4) vch = [65] ++ pubkey ++ [OP_CHECKSIG] := by
  simp only [decompressScript, Nat.add_sub_assoc, Nat.reduceSub, Nat.reduceLeDiff, h]

/-- A valid uncompressed key is read back from one coordinate and a parity. -/
theorem reads_unserScript_point {x y : List UInt8} (hx : x.length = 32) (hy : y.length = 32)
    (hvalid : keys.isFullyValid (0x04 :: (x ++ y)) = true) :
    Reads (unserScript keys) ((0x04 ||| (y.getLastD 0 &&& 0x01)) :: x)
      ([65] ++ (0x04 :: (x ++ y)) ++ [OP_CHECKSIG]) := by
  have hpoint := keys.decompress_eq x y hx hy hvalid
  -- the tag says which of the two points it is
  rcases parity_eq (y.getLastD 0) with hp | hp
  all_goals rw [hp] at hpoint ⊢
  · exact decompressScript_point 0 hpoint ▸ reads_unserScript_special keys 4 (by decide) hx
  · exact decompressScript_point 1 hpoint ▸ reads_unserScript_special keys 5 (by decide) hx

/-- Every short form is read back. -/
theorem reads_unserScript_compressed {compr : List UInt8}
    (h : compressScript keys script = some compr) : Reads (unserScript keys) compr script := by
  unfold compressScript at h
  split at h
  · -- Pay to public key hash.
    rename_i hash hkey
    obtain ⟨hscript, hlen⟩ := framed_eq_some hkey
    cases h
    rw [hscript]
    exact reads_unserScript_special keys 0 (by decide) hlen
  · split at h
    · -- Pay to script hash.
      rename_i hash hid
      obtain ⟨hscript, hlen⟩ := framed_eq_some hid
      cases h
      rw [hscript]
      exact reads_unserScript_special keys 1 (by decide) hlen
    · split at h
      · -- An uncompressed key keeps one coordinate and the parity of the other.
        rename_i xy hpub
        cases h
        rcases isToPubKey_eq_some hpub with ⟨-, tag, x, hkey, -, htag⟩ | ⟨hscript, hvalid, hxy⟩
        · injection hkey with htag' _
          rcases htag with rfl | rfl <;> exact absurd htag' (by decide)
        · obtain ⟨x, y, rfl, hx, hy⟩ : ∃ x y, xy = x ++ y ∧ x.length = 32 ∧ y.length = 32 := by
            obtain ⟨_, hkey, hlen⟩ := hxy
            injection hkey with _ hkey
            subst hkey
            exact ⟨xy.take 32, xy.drop 32, (take_append_drop 32 xy).symm, by simp [hlen],
              by simp [hlen]⟩
          have hlast : (x ++ y).getLastD 0 = y.getLastD 0 := by
            have hne : y ≠ [] := by
              intro hnil
              rw [hnil] at hy
              cases hy
            rw [getLastD_eq_getLast?, getLastD_eq_getLast?, getLast?_append_of_ne_nil x hne]
          have htake : (x ++ y).take 32 = x := by rw [← hx, take_left]
          rw [hlast, htake, hscript]
          exact reads_unserScript_point hx hy hvalid
      · -- A compressed key is its own short form.
        rename_i hne
        rcases isToPubKey_eq_some h with ⟨hscript, tag, x, rfl, hlen, htag⟩ | ⟨-, -, xy, rfl, -⟩
        · rw [hscript]
          rcases htag with rfl | rfl
          · exact reads_unserScript_special keys 2 (by decide) hlen
          · exact reads_unserScript_special keys 3 (by decide) hlen
        · exact absurd h (hne xy)

theorem framed_eq_none
    (h : script.length ≠ front.length + n + back.length) : framed front back n script = none :=
  if_neg fun hframe => h hframe.1

/-- No long script has a short form. -/
theorem compressScript_eq_none (keys : PubKeys) (h : 67 < script.length) :
    compressScript keys script = none := by
  have hlong : ∀ (front back : List UInt8) (n : Nat), front.length + n + back.length ≤ 67 →
      framed front back n script = none := fun front back n hle => framed_eq_none (by omega)
  unfold compressScript isToKeyID isToScriptID isToPubKey
  rw [hlong _ _ _ (by decide), hlong _ _ _ (by decide), hlong _ _ _ (by decide),
    hlong _ _ _ (by decide)]
  rfl

/-- What a script is after a round trip. -/
def restoredScript (script : CScript) : CScript :=
  if MAX_SCRIPT_SIZE < script.length then [OP_RETURN] else script

/-- The sizes are 32-bit numbers. -/
theorem reads_unserScript_restored (keys : PubKeys) (hlen : script.length + nSpecialScripts < 2 ^ 32) :
    Reads (unserScript keys) (serScript keys script) (restoredScript script) := by
  unfold serScript
  split
  · rename_i compr hcompr
    have hshort : ¬ MAX_SCRIPT_SIZE < script.length := fun hlong => by
      rw [compressScript_eq_none keys (lt_trans (by decide) hlong)] at hcompr
      cases hcompr
    rw [restoredScript, if_neg hshort]
    exact reads_unserScript_compressed hcompr
  · have hread : Reads readVarInt (writeVarInt (script.length + nSpecialScripts : Nat))
        (script.length + nSpecialScripts) :=
      reads_readVarInt (by omega) (by omega)
    refine hread.bind ?_
    exact (reads_readBytes (show script.length = script.length from rfl)).map
      (fun s => if MAX_SCRIPT_SIZE < script.length then [OP_RETURN] else s)

/-- **Scripts round trip**, up to the size limit. -/
theorem reads_unserScript (keys : PubKeys) (hlen : script.length ≤ MAX_SCRIPT_SIZE) :
    Reads (unserScript keys) (serScript keys script) script := by
  have hsize : script.length ≤ 10000 := hlen
  have hread : Reads (unserScript keys) (serScript keys script) (restoredScript script) :=
    reads_unserScript_restored keys (by unfold nSpecialScripts; omega)
  rwa [restoredScript, if_neg (not_lt.mpr hlen)] at hread

end

/-- The form of an uncompressed key, around bytes that are none. -/
theorem reads_unserScript_not_a_key :
    compressScript noKeys ([65, 0x04] ++ List.replicate 64 0 ++ [OP_CHECKSIG]) = none ∧
      Reads (unserScript noKeys)
        (serScript noKeys ([65, 0x04] ++ List.replicate 64 0 ++ [OP_CHECKSIG]))
        ([65, 0x04] ++ List.replicate 64 0 ++ [OP_CHECKSIG]) :=
  ⟨by decide, reads_unserScript noKeys (by decide)⟩

/-! ## Outputs -/

/-- `CTxOutCompressor`: the amount is stored as an unsigned number. -/
def serTxOut (keys : PubKeys) (o : CTxOut) : List UInt8 :=
  writeVarInt (compressAmount (o.nValue % 2 ^ 64).toNat) ++ serScript keys o.scriptPubKey

def unserTxOut (keys : PubKeys) : Reader CTxOut := do
  let nVal ← readVarInt
  let scriptPubKey ← unserScript keys
  pure ⟨int64 (decompressAmount nVal), scriptPubKey⟩

/-- An output that survives being stored. -/
def CTxOut.Storable (o : CTxOut) : Prop :=
  moneyRange o.nValue = true ∧ o.scriptPubKey.length ≤ MAX_SCRIPT_SIZE

/-- An output whose size can be written down. -/
def CTxOut.Writable (o : CTxOut) : Prop :=
  moneyRange o.nValue = true ∧ o.scriptPubKey.length + nSpecialScripts < 2 ^ 32

/-- What an output is after a round trip. -/
def CTxOut.restored (o : CTxOut) : CTxOut :=
  { o with scriptPubKey := restoredScript o.scriptPubKey }

theorem CTxOut.Storable.writable (h : o.Storable) : o.Writable := by
  have hlen : o.scriptPubKey.length ≤ 10000 := h.2
  refine ⟨h.1, ?_⟩
  unfold nSpecialScripts
  omega

theorem CTxOut.restored_eq_self : o.restored = o ↔ o.scriptPubKey.length ≤ MAX_SCRIPT_SIZE := by
  unfold restored restoredScript
  constructor
  · intro heq
    by_contra hlong
    rw [if_pos (not_le.mp hlong)] at heq
    have hscript : [OP_RETURN] = o.scriptPubKey := congrArg scriptPubKey heq
    rw [← hscript] at hlong
    exact hlong (by decide)
  · intro hle
    rw [if_neg (not_lt.mpr hle)]

theorem reads_unserTxOut_restored (keys : PubKeys) (h : o.Writable) :
    Reads (unserTxOut keys) (serTxOut keys o) o.restored := by
  obtain ⟨hrange, hlen⟩ := h
  obtain ⟨h0, hmax⟩ := moneyRange_iff.mp hrange
  have hbound : o.nValue ≤ 3155760000000000 := hmax
  have hnat : (o.nValue % 2 ^ 64).toNat = o.nValue.toNat := by omega
  have hval : (o.nValue.toNat : Int) = o.nValue := by omega
  have hback : int64 (decompressAmount (compressAmount o.nValue.toNat)) = o.nValue := by
    rw [decompressAmount_compressAmount (by omega), hval]
    exact int64_eq_self (by omega) (by omega)
  have hread : Reads readVarInt (writeVarInt (compressAmount o.nValue.toNat))
      (compressAmount o.nValue.toNat) :=
    reads_readVarInt (by omega) (by exact_mod_cast compressAmount_lt _)
  have hscript := (reads_unserScript_restored keys hlen).map
    (mk (int64 (decompressAmount (compressAmount o.nValue.toNat))))
  rw [serTxOut, hnat]
  refine hread.bind ?_
  rw [hback] at hscript ⊢
  exact hscript

/-- **Outputs round trip.** -/
theorem reads_unserTxOut (keys : PubKeys) (h : o.Storable) :
    Reads (unserTxOut keys) (serTxOut keys o) o := by
  have hread := reads_unserTxOut_restored keys h.writable
  rwa [restored_eq_self.mpr h.2] at hread

end Chratos
