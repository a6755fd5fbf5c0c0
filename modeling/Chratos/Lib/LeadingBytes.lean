import Mathlib.Algebra.GroupWithZero.Nat
import Mathlib.Data.Nat.Log

/-!
# LeadingBytes — numbers cut to their leading bytes

A signed big-endian number of `l` bytes keeps its leading bit for the sign, so `n` takes as many
bytes as make `n` smaller than `128 * 256 ^ (l - 1)`. A floating format keeps the first `k` of them.

* `lt_of_mpiLength`, `le_of_mpiLength` — the number lies between the bounds of its length.
-/

namespace LeadingBytes

/-- The number of bytes, with one more when the first one would read as a sign. -/
def mpiLength (n : Nat) : Nat :=
  let size := if n = 0 then 0 else Nat.log 256 n + 1
  if 128 ≤ n / 256 ^ (size - 1) then size + 1 else size

/-- The number with all but its first `k` bytes set to zero. -/
def leading (k n : Nat) : Nat := n / 256 ^ (mpiLength n - k) * 256 ^ (mpiLength n - k)

variable {k m n : Nat}

theorem mpiLength_of_pos (h : 0 < n) :
    mpiLength n = if 128 ≤ n / 256 ^ Nat.log 256 n then Nat.log 256 n + 2 else Nat.log 256 n + 1 := by
  unfold mpiLength
  rw [if_neg h.ne']
  rfl

theorem mpiLength_pos (h : 0 < n) : 0 < mpiLength n := by
  rw [mpiLength_of_pos h]
  split
  · exact Nat.succ_pos _
  · exact Nat.succ_pos _

theorem lt_of_mpiLength (h : 0 < n) : n < 128 * 256 ^ (mpiLength n - 1) := by
  have hlt : n < 256 ^ (Nat.log 256 n + 1) := Nat.lt_pow_succ_log_self (by decide) n
  have hpos : 0 < 256 ^ Nat.log 256 n := Nat.pow_pos (by decide)
  rw [mpiLength_of_pos h]
  split
  · show n < 128 * 256 ^ (Nat.log 256 n + 1)
    omega
  · -- the first byte is below 128
    rename_i hfirst
    exact (Nat.div_lt_iff_lt_mul hpos).mp (not_le.mp hfirst)

theorem le_of_mpiLength (h : 2 ≤ mpiLength n) : 128 * 256 ^ (mpiLength n - 2) ≤ n := by
  have hpos : 0 < n := by
    rcases Nat.eq_zero_or_pos n with rfl | hpos
    · exact absurd h (by decide)
    · exact hpos
  have hle : 256 ^ Nat.log 256 n ≤ n := Nat.pow_log_le_self 256 hpos.ne'
  rw [mpiLength_of_pos hpos] at h ⊢
  split at h
  · rename_i hfirst
    rw [if_pos hfirst]
    exact (Nat.le_div_iff_mul_le (Nat.pow_pos (by decide))).mp hfirst
  · rename_i hfirst
    rw [if_neg hfirst]
    -- a power of 256 is already above the bound of the shorter lengths
    have hstep : 256 ^ (Nat.log 256 n - 1 + 1) = 256 ^ (Nat.log 256 n - 1) * 256 := pow_succ ..
    rw [Nat.sub_add_cancel (by omega)] at hstep
    show 128 * 256 ^ (Nat.log 256 n - 1) ≤ n
    omega

theorem mpiLength_mono (h : n ≤ m) : mpiLength n ≤ mpiLength m := by
  by_contra hlt
  rcases Nat.eq_zero_or_pos n with rfl | hn
  · exact hlt (Nat.zero_le _)
  · have hm : 0 < m := hn.trans_le h
    have hmlen := mpiLength_pos hm
    have hle := le_of_mpiLength (n := n) (by omega)
    have hbelow := lt_of_mpiLength hm
    have hpow : 256 ^ (mpiLength m - 1) ≤ 256 ^ (mpiLength n - 2) :=
      Nat.pow_le_pow_right (by decide) (by omega)
    omega

/-! ## What is kept

What is kept is at most the number, is not lost when two bytes are kept, and grows with the number
(`leading_le`, `leading_pos`, `leading_mono`).
-/

theorem leading_le (k n : Nat) : leading k n ≤ n := Nat.div_mul_le_self _ _

theorem leading_eq_self (h : mpiLength n ≤ k) : leading k n = n := by
  unfold leading
  rw [Nat.sub_eq_zero_of_le h, Nat.pow_zero, Nat.div_one, mul_one]

/-- A longer number keeps the bound of its length: it is a multiple of what is cut off. -/
theorem le_leading (hk : 2 ≤ k) (h : k < mpiLength n) :
    128 * 256 ^ (mpiLength n - 2) ≤ leading k n := by
  have hle := le_of_mpiLength (n := n) (by omega)
  have hsplit : 128 * 256 ^ (mpiLength n - 2) = 128 * 256 ^ (k - 2) * 256 ^ (mpiLength n - k) := by
    rw [mul_assoc, ← pow_add]
    congr 2
    omega
  rw [hsplit] at hle ⊢
  exact Nat.mul_le_mul_right _ ((Nat.le_div_iff_mul_le (Nat.pow_pos (by decide))).mpr hle)

theorem leading_pos (hk : 2 ≤ k) (h : 0 < n) : 0 < leading k n := by
  rcases lt_or_ge k (mpiLength n) with hlong | hshort
  · have hpow : 0 < 256 ^ (mpiLength n - 2) := Nat.pow_pos (by decide)
    exact lt_of_lt_of_le (by omega) (le_leading hk hlong)
  · rw [leading_eq_self hshort]
    exact h

/-- **Cutting keeps the order.** Numbers of one length lose the same bytes; a longer one keeps the bound
that the shorter one is below of. -/
theorem leading_mono (hk : 2 ≤ k) (h : n ≤ m) : leading k n ≤ leading k m := by
  rcases lt_or_ge k (mpiLength m) with hlong | hshort
  · rcases (mpiLength_mono h).eq_or_lt with heq | hlt
    · unfold leading
      rw [heq]
      exact Nat.mul_le_mul_right _ (Nat.div_le_div_right h)
    · rcases Nat.eq_zero_or_pos n with rfl | hn
      · exact (leading_le k 0).trans (Nat.zero_le _)
      · have hpow : 256 ^ (mpiLength n - 1) ≤ 256 ^ (mpiLength m - 2) :=
          Nat.pow_le_pow_right (by decide) (by omega)
        calc leading k n ≤ n := leading_le k n
          _ ≤ 128 * 256 ^ (mpiLength n - 1) := (lt_of_mpiLength hn).le
          _ ≤ 128 * 256 ^ (mpiLength m - 2) := Nat.mul_le_mul_left 128 hpow
          _ ≤ leading k m := le_leading hk hlong
  · rw [leading_eq_self hshort]
    exact (leading_le k n).trans h

end LeadingBytes
