import Chratos.Coins.Disk

/-!
# Chratos — what the coin database gives back

`CCoins::Serialize` writes a version, a code for the first two outputs and the coinbase flag, a mask for
the other outputs, the unspent outputs and the height. It has no place for `fCoinStake`, and a script
beyond `MAX_SCRIPT_SIZE` is not read back. Everything else is, whatever outputs have been spent.
-/

namespace Chratos

open Codec CCoins

/-- An entry is read back, to the last byte, exactly when it is not the one of a coinstake and its
scripts are within the limit. -/
theorem coins_roundTrip_iff (keys : PubKeys) {c : CCoins} (hclean : c.cleanup = c)
    (hunspent : c.isPruned = false) (hversion : 0 ≤ c.nVersion ∧ c.nVersion < 2 ^ 31)
    (hheight : c.nHeight < 2 ^ 31) (hlength : c.vout.length ≤ 2 ^ 32 - 6)
    (houts : ∀ o ∈ c.vout, o = CTxOut.null ∨
      moneyRange o.nValue = true ∧ o.scriptPubKey.length + nSpecialScripts < 2 ^ 32) :
    Reads (unserCoins keys) (serCoins keys c) c ↔
      c.fCoinStake = false ∧ ∀ o ∈ c.vout, o.scriptPubKey.length ≤ MAX_SCRIPT_SIZE := by
  have hne : c.vout ≠ [] := by
    intro hnil
    unfold isPruned at hunspent
    rw [hnil] at hunspent
    cases hunspent
  have hint : IsInt32 c.nVersion := ⟨by omega, hversion.2⟩
  have hread := reads_unserCoins_restored keys ⟨hne, hclean, houts, hlength, hheight, hint⟩
  have hstored : storedVersion c.nVersion = c.nVersion := if_pos hversion.1
  -- what has been read is the entry itself if the flag and every output are
  have hself : c.restored = c ↔ c.fCoinStake = false ∧ c.vout.map CTxOut.restored = c.vout := by
    unfold restored stored
    rw [hstored]
    constructor
    · intro heq
      exact ⟨(congrArg fCoinStake heq).symm, congrArg vout heq⟩
    · rintro ⟨hstake, hvout⟩
      rw [hvout, ← hstake]
  have hscripts : c.vout.map CTxOut.restored = c.vout ↔
      ∀ o ∈ c.vout, o.scriptPubKey.length ≤ MAX_SCRIPT_SIZE := by
    conv_lhs => rhs; rw [← List.map_id c.vout]
    rw [List.map_inj_left]
    exact forall₂_congr fun o _ => CTxOut.restored_eq_self
  rw [← hscripts, ← hself]
  constructor
  · intro h
    have hsame := (hread []).symm.trans (h [])
    exact (Prod.mk.inj (Option.some.inj hsame)).1
  · intro heq
    rwa [heq] at hread

/-- Two outputs of a coinstake, the first one spent. -/
def stakedCoins (fCoinStake : Bool) : CCoins where
  fCoinStake := fCoinStake
  vout := [CTxOut.null, ⟨1000, [OP_CHECKSIG]⟩]
  nHeight := 7
  nVersion := 1

theorem coins_roundTrip_iff_spent :
    Reads (unserCoins noKeys) (serCoins noKeys (stakedCoins false)) (stakedCoins false) := by
  have houts : ∀ o ∈ (stakedCoins false).vout, o = CTxOut.null ∨
      moneyRange o.nValue = true ∧ o.scriptPubKey.length + nSpecialScripts < 2 ^ 32 := by
    decide
  exact (coins_roundTrip_iff noKeys (by decide) (by decide) (by decide) (by decide) (by decide)
    houts).mpr (by decide)

/-- A coinstake's entry comes back as that of an ordinary transaction. -/
theorem coinstake_forgotten :
    unserCoins noKeys (serCoins noKeys (stakedCoins true)) = some (stakedCoins false, []) ∧
      (stakedCoins false).fCoinStake ≠ (stakedCoins true).fCoinStake := by
  decide +kernel

end Chratos
