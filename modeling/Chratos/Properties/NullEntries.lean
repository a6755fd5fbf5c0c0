import Chratos.Wallet.DividendCredit

/-!
# Chratos — null pointers in the block index

Block processing never puts a null pointer into `mapBlockIndex`. The wallet does: whenever it values
a coin of a transaction that is in no known block, `mapBlockIndex[hashBlock]` adds the key, and from
then on `count` says that the null hash is a known block.
-/

namespace Chratos

open BlockTree

variable {ι : Type} [LinearOrder ι]

/-- A call of block processing or of the wallet, whatever the wallet holds by then. -/
inductive NodeCall (ι : Type) where
  | block (c : BlockCall ι)
  | wallet (w : CWallet ι) (c : WalletCall ι)

/-- One call. What the wallet has done to the map stays when it throws. -/
def BlockMap.step (v : Validator ι) (null : ι) (s : BlockMap ι) :
    NodeCall ι → Except (MapFault ι) (BlockMap ι)
  | .block c => s.stepBlock v null c
  | .wallet w c => .ok (w.run c s).2

/-- The wallet asks about known blocks. -/
def NodeCall.Safe (s : BlockMap ι) : NodeCall ι → Prop
  | .block _ => True
  | .wallet w c => c.AsksKnown w s

/-- The maps of a node from genesis on. -/
inductive BlockMap.Reached (v : Validator ι) (null : ι) : BlockMap ι → Prop
  | init {nBits : UInt32} {nVtx : Nat} {tree : BlockTree ι}
      (hok : initBlockIndex v nBits nVtx = .ok tree) :
      BlockMap.Reached v null (.init v.hashGenesisBlock tree)
  | call {s s' : BlockMap ι} (c : NodeCall ι) (hreached : BlockMap.Reached v null s) (hsafe : c.Safe s)
      (hok : s.step v null c = .ok s') : BlockMap.Reached v null s'

variable {v : Validator ι} {null : ι} {s s' : BlockMap ι}

/-- A call that is safe leaves every entry named by its key. -/
theorem BlockMap.Named.step (h : s.Named) {c : NodeCall ι} (hsafe : c.Safe s)
    (hok : s.step v null c = .ok s') : s'.Named := by
  cases c with
  | block c =>
    have hstep : s.stepBlock v null c = .ok s' := hok
    rcases h.stepBlock c with ⟨t, ht, hnamed⟩ | ⟨e, he⟩
    · rw [ht] at hstep
      cases hstep
      exact hnamed
    · rw [he] at hstep
      cases hstep
  | wallet w c =>
    have hsame : (w.run c s).2 = s := CWallet.run_keeps hsafe s rfl
    obtain rfl : (w.run c s).2 = s' := Except.ok.inj hok
    rwa [hsame]

/-- So does every run: the induction is on its calls. -/
theorem BlockMap.Reached.named (h : BlockMap.Reached v null s) : s.Named := by
  induction h with
  | init _ => exact named_init _ _
  | call c _ hsafe hok ih => exact ih.step hsafe hok

/-- In every state reached, every key of `mapBlockIndex` leads to an entry whose `phashBlock` is the
key, a key that `count` finds leads to one, and no call meets a null pointer. -/
theorem blockMap_sound (h : BlockMap.Reached v null s) :
    s.Sound ∧
      (∀ hash, s.mapBlockIndex.count hash = true → ∃ b, s.mapBlockIndex.find hash = some (some b)) ∧
      ∀ c, s.step v null c ≠ .error .nullPointer := by
  have hnamed := h.named
  refine ⟨hnamed.sound, fun hash hcount => ?_, fun c hnull => ?_⟩
  · obtain ⟨pindex, hfind⟩ := Option.isSome_iff_exists.mp hcount
    exact ⟨hash, hfind.trans (congrArg some (hnamed.find hfind))⟩
  · cases c with
    | block c =>
      have hstep : s.stepBlock v null c = .error .nullPointer := hnull
      rcases hnamed.stepBlock (v := v) c with ⟨t, ht, -⟩ | ⟨e, he⟩
      · rw [ht] at hstep
        cases hstep
      · rw [he] at hstep
        cases hstep
    | wallet w c => cases hnull

/-! ## Unconfirmed change -/

/-- A wallet with one transaction, which spends the wallet's own coins and is in the block of the given
hash. -/
def changeWallet (hashBlock : Nat) : CWallet Nat where
  mapWallet := [(7, {
    vout := [⟨5, []⟩]
    hashBlock := hashBlock
    nIndex := 0
    fGenerated := false
    fFinal := true
    fFromMe := true })]
  isMine := fun _ => true
  isSpent := fun _ _ => false
  isSpentAt := fun _ _ _ => false
  getDividendPayout := fun amount _ => some amount
  getDividendPayoutUntil := fun amount _ _ => some amount
  hashNull := 0
  hashAbandon := 1

/-- Genesis has the hash 2 and is valid. -/
def genesisTwo : Validator Nat := ⟨2, fun _ => .valid⟩

/-- The index after `InitBlockIndex`. -/
def genesisMap : BlockMap Nat :=
  .init 2 (match initBlockIndex genesisTwo 0x207fffff 1 with
    | .ok tree => tree
    | .error h => h.tree)

theorem genesisMap_reached : BlockMap.Reached genesisTwo 0 genesisMap := by
  obtain ⟨tree, hok, -⟩ : ∃ tree, initBlockIndex genesisTwo 0x207fffff 1 = .ok tree ∧
      Sound genesisTwo tree 2 :=
    initBlockIndex_spec rfl one_pos (by decide)
  have hreached : BlockMap.Reached genesisTwo 0 (.init 2 tree) := .init hok
  unfold genesisMap
  rw [hok]
  exact hreached

theorem blockMap_sound_confirmed : ((changeWallet 2).run .getDividendBalance genesisMap).1 = .ok 5 ∧
      BlockMap.Sound ((changeWallet 2).run .getDividendBalance genesisMap).2 := by
  have hknown : WalletCall.AsksKnown (changeWallet 2) genesisMap .getDividendBalance := by
    intro it hit _
    rw [List.mem_singleton.mp hit]
    rfl
  have hreached :=
    BlockMap.Reached.call (.wallet (changeWallet 2) .getDividendBalance) genesisMap_reached
    hknown rfl
  exact ⟨by decide +kernel, (blockMap_sound hreached).1⟩

/-- The dividend balance of a wallet with unconfirmed change adds the null hash to the map. Then `count`
finds it, a kernel check that looks up the block of a transaction of the mempool meets the null pointer,
and so does every walk over the map. -/
theorem dividend_balance_adds_null : BlockMap.Reached genesisTwo 0 genesisMap ∧
      ∃ s', genesisMap.step genesisTwo 0 (.wallet (changeWallet 0) .getDividendBalance) = .ok s' ∧
        (0, none) ∈ s'.mapBlockIndex ∧ s'.mapBlockIndex.count 0 = true ∧
        s'.step genesisTwo 0 (.block (.lookup 0)) = .error .nullPointer ∧
        s'.step genesisTwo 0 (.block (.resetBlockFailureFlags 2)) = .error .nullPointer := by
  have hmap : ((changeWallet 0).run .getDividendBalance genesisMap).2.mapBlockIndex =
      [(0, none), (2, some 2)] := by decide +kernel
  have hmem : (0, none) ∈ ((changeWallet 0).run .getDividendBalance genesisMap).2.mapBlockIndex := by
    rw [hmap]
    exact List.mem_cons_self
  have hfind :
    ((changeWallet 0).run .getDividendBalance genesisMap).2.mapBlockIndex.find 0 = some none := by
    rw [hmap]
    rfl
  refine ⟨genesisMap_reached, _, rfl, hmem, ?_, ?_, BlockMap.walk_null hmem⟩
  · rw [StdMap.count, hfind]
    rfl
  · rw [BlockMap.step]
    exact BlockMap.lookup_null hfind

end Chratos
