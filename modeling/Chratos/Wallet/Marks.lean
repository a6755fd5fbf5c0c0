import Chratos.Wallet.Sync

/-!
# Chratos — what the marking loops of the wallet do

`MarkConflicted` and `AbandonTransaction` visit transactions from one on, along the spends, and mark
them. A mark changes the block of a transaction and nothing else (`MarkedBy`).
-/

namespace Chratos.Wallet

open Outcome Worklist List Function

variable {w w₁ w' : CWallet} {hashTx hashBlock : Uint256} {chain : CChain} {hash : Uint256}

/-- A block of the chain has confirmations. -/
theorem CChain.confirmations_pos (h : hash ∈ chain.vChain) : 0 < chain.confirmations hash := by
  unfold confirmations
  cases hidx : chain.vChain.idxOf? hash with
  | none => exact absurd h (idxOf?_eq_none_iff.mp hidx)
  | some nHeight =>
    obtain ⟨hlt, -⟩ := findIdx?_eq_some_iff_getElem.mp hidx
    show 0 < (chain.vChain.length : Int) - 1 - nHeight + 1
    omega

theorem CChain.mem_of_confirmations (h : chain.confirmations hash ≠ 0) : hash ∈ chain.vChain := by
  by_contra hmem
  apply h
  unfold confirmations
  rw [idxOf?_eq_none_iff.mpr hmem]

/-- The mark of a conflict with a block. -/
def CWalletTx.conflicted (hashBlock : Uint256) (wtx : CWalletTx) : CWalletTx :=
  { wtx with nIndex := -1, hashBlock := hashBlock }

def CWalletTx.abandoned (wtx : CWalletTx) : CWalletTx :=
  { wtx with nIndex := -1, hashBlock := abandonHash }

/-- A conflict has the depth of the block, below zero. -/
theorem CWalletTx.depth_conflicted (h : hashBlock ∈ chain.vChain) (wtx : CWalletTx) :
    (wtx.conflicted hashBlock).getDepthInMainChain chain = -chain.confirmations hashBlock := by
  have hunset : (wtx.conflicted hashBlock).hashUnset = false := by
    unfold hashUnset conflicted
    rw [decide_eq_false_iff_not, not_or]
    exact chain.named hashBlock h
  unfold getDepthInMainChain
  rw [hunset]
  show (if ((-1 : Int) = -1) then -1 else 1) * chain.confirmations hashBlock =
    -chain.confirmations hashBlock
  rw [if_pos rfl]
  omega

namespace CWallet

/-- The transactions of a set got a mark, and nothing else has changed. -/
structure MarkedBy (mark : CWalletTx → CWalletTx) (M : Set Uint256) (w w' : CWallet) : Prop where
  inside : ∀ h ∈ M, w'.mapWallet h = (w.mapWallet h).map mark
  outside : ∀ h ∉ M, w'.mapWallet h = w.mapWallet h
  spends : w'.mapTxSpends = w.mapTxSpends

section

variable {mark : CWalletTx → CWalletTx} {M : Set Uint256} {now h : Uint256} {wtx : CWalletTx}

theorem markedBy_empty (mark : CWalletTx → CWalletTx) (w : CWallet) : MarkedBy mark ∅ w w :=
  ⟨fun _ hmem => absurd hmem (Set.notMem_empty _), fun _ _ => rfl, rfl⟩

/-- One more transaction gets the mark. -/
theorem MarkedBy.set (hM : MarkedBy mark M w w₁) (hnow : now ∉ M) (hwtx : w₁.mapWallet now = some wtx) :
    MarkedBy mark (insert now M) w (w₁.set now (mark wtx)) := by
  refine ⟨fun h hmem => ?_, fun h hmem => ?_, hM.spends⟩
  · show update w₁.mapWallet now (some (mark wtx)) h = _
    by_cases heq : h = now
    · rw [heq, update_self, ← hM.outside now hnow, hwtx]
      rfl
    · rw [update_of_ne heq]
      exact hM.inside h (hmem.resolve_left heq)
  · show update w₁.mapWallet now (some (mark wtx)) h = _
    rw [Set.mem_insert_iff, not_or] at hmem
    rw [update_of_ne hmem.1]
    exact hM.outside h hmem.2

theorem MarkedBy.isSome (hM : MarkedBy mark M w w') (h : Uint256) :
    (w'.mapWallet h).isSome = (w.mapWallet h).isSome := by
  by_cases hmem : h ∈ M
  · rw [hM.inside h hmem, Option.isSome_map]
  · rw [hM.outside h hmem]

/-- A marked wallet has the transactions it had, if the mark keeps them. -/
theorem MarkedBy.map_tx (hM : MarkedBy mark M w w') (hmark : ∀ wtx, (mark wtx).tx = wtx.tx)
    (h : Uint256) : (w'.mapWallet h).map CWalletTx.tx = (w.mapWallet h).map CWalletTx.tx := by
  by_cases hmem : h ∈ M
  · rw [hM.inside h hmem, Option.map_map]
    congr 1
    funext wtx
    exact hmark wtx
  · rw [hM.outside h hmem]

end

/-! ## Rounds -/

/-- The transactions a loop from `hashTx` can come to. -/
def visited (w : CWallet) (hashTx : Uint256) : List Uint256 :=
  hashTx :: w.mapTxSpends.entries.map Prod.snd

theorem spendersFrom_subset (w : CWallet) (hashTx first now : Uint256) :
    w.mapTxSpends.spendersFrom first now ⊆ w.visited hashTx := by
  intro h hmem
  obtain ⟨e, he, rfl⟩ := mem_map.mp hmem
  have hentry : e ∈ w.mapTxSpends.entries :=
    ((takeWhile_sublist _).trans (dropWhile_sublist _)).subset he
  exact mem_cons_of_mem _ (mem_map_of_mem hentry)

/-- The wallet while a loop runs. -/
def Running (w : CWallet) (hashTx : Uint256) (w₁ : CWallet) : Prop :=
  w₁.mapTxSpends = w.mapTxSpends ∧ (w₁.mapWallet hashTx).isSome = true

variable {w₂ : CWallet} {x : Uint256} {next : List Uint256}

theorem Running.isSome (h : w.Running hashTx w₁)
    (hx : x ∈ w.visited hashTx) : (w₁.mapWallet x).isSome = true := by
  rcases mem_cons.mp hx with rfl | hx
  · exact h.2
  · obtain ⟨e, he, rfl⟩ := mem_map.mp hx
    exact w₁.known e (h.1.symm ▸ he)

theorem Running.set (h : w.Running hashTx w₁) (now : Uint256)
    (wtx : CWalletTx) : w.Running hashTx (w₁.set now wtx) := by
  refine ⟨h.1, ?_⟩
  show (update w₁.mapWallet now (some wtx) hashTx).isSome = true
  by_cases heq : hashTx = now
  · rw [heq, update_self]
    rfl
  · rw [update_of_ne heq]
    exact h.2

/-- A loop over the spends fails only if a round does. -/
theorem loop_fails (hin : (w.mapWallet hashTx).isSome = true)
    {visit : CWallet → Uint256 → WalletResult (CWallet × List Uint256)}
    (hvisit : ∀ w₁ x w₂ next, w.Running hashTx w₁ → visit w₁ x = .ok (w₂, next) →
      w.Running hashTx w₂ ∧ next ⊆ w.visited hashTx) {e : WalletHalt}
    (h : Worklist.loop (· ≤ ·) .unfinished visit w.rounds w [hashTx] [] = .error e) :
    ∃ w₁ x, w.Running hashTx w₁ ∧ x ∈ w.visited hashTx ∧ visit w₁ x = .error e := by
  refine loop_error (J := w.Running hashTx) (fun w₁ x w₂ next hw _ => hvisit w₁ x w₂ next hw) ⟨rfl, hin⟩
    (nodup_singleton _) nodup_nil (fun _ _ => not_mem_nil) ?_ (nil_subset _) ?_ h
  · exact cons_subset.mpr ⟨mem_cons_self, nil_subset _⟩
  · simp [visited, rounds]

/-! ## Conflicts -/

/-- The spends in `mapTxSpends`. -/
def Records (w : CWallet) (parent child : Uint256) : Prop :=
  ∃ o : COutPoint, o.hash = parent ∧ (o, child) ∈ w.mapTxSpends.entries

/-- The transactions that a conflict of this depth is new to. -/
def LessConflicted (w : CWallet) (chain : CChain) (conflictconfirms : Int) (h : Uint256) : Prop :=
  ∃ wtx, w.mapWallet h = some wtx ∧ conflictconfirms < wtx.getDepthInMainChain chain

theorem conflictVisit_running {c : Int} (hw : w.Running hashTx w₁)
    (h : conflictVisit chain hashBlock c w₁ x = .ok (w₂, next)) :
    w.Running hashTx w₂ ∧ next ⊆ w.visited hashTx := by
  unfold conflictVisit at h
  split at h
  · cases h
  · split at h
    · cases h
      refine ⟨hw.set x _, ?_⟩
      rw [hw.1]
      exact w.spendersFrom_subset hashTx x x
    · cases h
      exact ⟨hw, nil_subset _⟩

/-- **The conflicted transactions** are those that can be reached from the given one along the recorded
spends, through transactions the conflict is new to. -/
theorem markConflicted_spec (h : w.markConflicted chain hashBlock hashTx = .ok w')
    (hblock : hashBlock ∈ chain.vChain) : MarkedBy (CWalletTx.conflicted hashBlock)
      {x | Reach
        (w.LessConflicted chain (-chain.confirmations hashBlock)) w.Records hashTx x} w w' := by
  have hneg : ¬ 0 ≤ -chain.confirmations hashBlock := by
    have := CChain.confirmations_pos hblock
    omega
  unfold markConflicted at h
  rw [if_neg hneg] at h
  refine loop_marks (P := fun M w' => MarkedBy (CWalletTx.conflicted hashBlock) M w w') ?_
    (markedBy_empty _ w) h
  intro M w₁ x w₂ xs hM hx hvisit
  have hsame : w₁.mapWallet x = w.mapWallet x := hM.outside x hx
  unfold conflictVisit at hvisit
  split at hvisit
  · cases hvisit
  · next wtx hwtx =>
    split at hvisit
    · next hlt =>
      cases hvisit
      refine .inl ⟨⟨wtx, hsame ▸ hwtx, hlt⟩, hM.set hx hwtx, fun y => ?_⟩
      rw [hM.spends]
      exact TxSpends.mem_spendersFrom_self
    · next hlt =>
      cases hvisit
      refine .inr ⟨?_, hM, rfl⟩
      rintro ⟨wtx', hwtx', hlt'⟩
      rw [← hsame, hwtx] at hwtx'
      cases hwtx'
      exact hlt hlt'

/-- `MarkConflicted` of a transaction of the wallet ends, without a failed assertion. -/
theorem exists_markConflicted (hin : (w.mapWallet hashTx).isSome = true) :
    ∃ w', w.markConflicted chain hashBlock hashTx = .ok w' := by
  unfold markConflicted
  dsimp only
  split
  · exact ⟨w, rfl⟩
  · cases hloop : Worklist.loop (· ≤ ·) WalletHalt.unfinished
      (conflictVisit chain hashBlock (-chain.confirmations hashBlock)) w.rounds w [hashTx] [] with
    | ok w' => exact ⟨w', rfl⟩
    | error e =>
      obtain ⟨w₁, x, hw, hx, hvisit⟩ :=
        loop_fails hin (fun w₁ x w₂ next hw hok => conflictVisit_running hw hok) hloop
      obtain ⟨wtx, hwtx⟩ := Option.isSome_iff_exists.mp (hw.isSome hx)
      unfold conflictVisit at hvisit
      rw [hwtx] at hvisit
      dsimp only at hvisit
      split at hvisit
      · cases hvisit
      · cases hvisit

/-! ## Abandoning -/

/-- The transactions that can be abandoned: unconfirmed, not conflicted, and not abandoned before. -/
def Abandonable (w : CWallet) (chain : CChain) (h : Uint256) : Prop :=
  ∃ wtx, w.mapWallet h = some wtx ∧ wtx.getDepthInMainChain chain = 0 ∧ wtx.isAbandoned = false

variable {inMempool : Uint256 → Bool}

theorem abandonVisit_running (hw : w.Running hashTx w₁)
    (h : abandonVisit chain inMempool hashTx w₁ x = .ok (w₂, next)) :
    w.Running hashTx w₂ ∧ next ⊆ w.visited hashTx := by
  unfold abandonVisit at h
  split at h
  · cases h
  · dsimp only at h
    split at h
    · cases h
    · split at h
      · split at h
        · cases h
        · cases h
          refine ⟨hw.set x _, ?_⟩
          rw [hw.1]
          exact w.spendersFrom_subset hashTx hashTx x
      · cases h
        exact ⟨hw, nil_subset _⟩

/-- **The abandoned transactions** are those that can be reached from the given one along what the loop
over the outputs finds. -/
theorem abandonTransaction_spec (h : w.abandonTransaction chain inMempool hashTx = .ok (true, w')) :
    MarkedBy CWalletTx.abandoned
      {x | Reach (w.Abandonable chain) (fun x y =>
        y ∈ w.mapTxSpends.spendersFrom hashTx x) hashTx x} w w' := by
  unfold abandonTransaction at h
  split at h
  · cases h
  · split at h
    · cases h
    · obtain ⟨w₂, hloop, hw₂⟩ := bind_eq_ok.mp h
      cases hw₂
      refine loop_marks (P := fun M w' =>
        MarkedBy CWalletTx.abandoned M w w') ?_ (markedBy_empty _ w) hloop
      intro M w₁ x w₂ xs hM hx hvisit
      have hsame : w₁.mapWallet x = w.mapWallet x := hM.outside x hx
      unfold abandonVisit at hvisit
      split at hvisit
      · cases hvisit
      · next wtx hwtx =>
        dsimp only at hvisit
        split at hvisit
        · cases hvisit
        · split at hvisit
          · next hopen =>
            split at hvisit
            · cases hvisit
            · cases hvisit
              refine .inl
                ⟨⟨wtx, hsame ▸ hwtx, hopen.1, by simpa using hopen.2⟩, hM.set hx hwtx, fun y => ?_⟩
              rw [hM.spends]
          · next hopen =>
            cases hvisit
            refine .inr ⟨?_, hM, rfl⟩
            rintro ⟨wtx', hwtx', hdepth, habandoned⟩
            rw [← hsame, hwtx] at hwtx'
            cases hwtx'
            exact hopen ⟨hdepth, by simp [habandoned]⟩

/-- `AbandonTransaction` refuses what is confirmed or in the mempool, and then leaves the wallet. -/
theorem abandonTransaction_refuses (h : w.abandonTransaction chain inMempool hashTx = .ok (false, w')) :
    w' = w := by
  unfold abandonTransaction at h
  split at h
  · cases h
  · split at h
    · cases h
      rfl
    · obtain ⟨w₂, -, hw₂⟩ := bind_eq_ok.mp h
      cases hw₂

/-- The loop of `AbandonTransaction` ends. -/
theorem abandonTransaction_ne_unfinished :
    w.abandonTransaction chain inMempool hashTx ≠ .error .unfinished := by
  intro h
  unfold abandonTransaction at h
  split at h
  · cases h
  · next origtx horig =>
    split at h
    · cases h
    · cases hloop : Worklist.loop (· ≤ ·) WalletHalt.unfinished (abandonVisit chain inMempool hashTx)
        w.rounds w [hashTx] [] with
      | ok w' =>
        rw [hloop] at h
        cases h
      | error e =>
        rw [hloop] at h
        cases h
        obtain ⟨w₁, x, -, -, hvisit⟩ := loop_fails (by rw [horig]; rfl)
          (fun w₁ x w₂ next hw hok => abandonVisit_running hw hok) hloop
        -- a round fails by an assertion only
        unfold abandonVisit at hvisit
        split at hvisit
        · cases hvisit
        · dsimp only at hvisit
          split at hvisit
          · cases hvisit
          · split at hvisit
            · split at hvisit <;> cases hvisit
            · cases hvisit

end CWallet

end Chratos.Wallet
