import Chratos.Lib.Effect
import Chratos.Properties.Reconsider

/-!
# Chratos — the map of the block index (`main.cpp`)

`mapBlockIndex` is a map from hashes to pointers, so besides its entries it may hold keys with a null
pointer, which `operator[]` creates. The calls of block processing are those of the block tree with
their accesses to the map: lookups by `find`, lookups behind `count`, and walks over all entries.
A null pointer is dereferenced by whoever meets one, with one exception: a header that is known is not
looked at before it is handed to the caller.
-/

namespace Chratos

open BlockTree Function List

/-- The tree and the map through which it is reached. A pointer is the block it points to. -/
structure BlockMap (ι : Type) where
  tree : BlockTree ι
  mapBlockIndex : StdMap ι (Option ι)
  phashBlock : ι → Option ι

/-- Why a call does not come to its end. -/
inductive MapFault (ι : Type) where
  | nullPointer
  | halted (h : Halted ι)

/-- What block processing does with the map. `lookup` is a lookup behind `count`, as in
`CheckProofOfStake`, `TransactionGetCoinAge` or `CheckKernel`; `fChecks` says whether the checks of a
header that are not about the map pass. -/
inductive BlockCall (ι : Type) where
  | acceptBlockHeader (block : Header ι) (fChecks : Bool)
  | receivedBlockTransactions (b : ι) (nVtx file : Nat)
  | activateBestChain
  | invalidateBlock (b : ι)
  | resetBlockFailureFlags (b : ι)
  | pruneOneBlockFile (fileNumber : Nat)
  | lookup (hash : ι)

namespace BlockMap

variable {ι : Type} [LinearOrder ι]

/-- The map after `InitBlockIndex`. -/
def init (hashGenesisBlock : ι) (tree : BlockTree ι) : BlockMap ι where
  tree := tree
  mapBlockIndex := [(hashGenesisBlock, some hashGenesisBlock)]
  phashBlock := fun b => if b = hashGenesisBlock then some hashGenesisBlock else none

/-- `AddToBlockIndex`; the null hash is a key like any other. -/
def addToBlockIndex (null : ι) (s : BlockMap ι) (block : Header ι) :
    Except (MapFault ι) (BlockMap ι × Option ι) :=
  match s.mapBlockIndex.find block.hash with
  | some pindex => .ok (s, pindex)
  | none =>
    let mapBlockIndex := s.mapBlockIndex.insert block.hash (some block.hash)
    match mapBlockIndex.find (block.hashPrevBlock.getD null) with
    | some none => .error .nullPointer
    | _ => .ok ({
        tree := s.tree.addToBlockIndex block
        mapBlockIndex := mapBlockIndex
        phashBlock := Function.update s.phashBlock block.hash (some block.hash) }, some block.hash)

section

variable (v : Validator ι) (null : ι) (s : BlockMap ι)

/-- `AcceptBlockHeader`: `none` is a refusal, otherwise the pointer handed out. -/
def acceptBlockHeader (block : Header ι)
    (fChecks : Bool) : Except (MapFault ι) (BlockMap ι × Option (Option ι)) :=
  if block.hash ≠ v.hashGenesisBlock then
    match s.mapBlockIndex.find block.hash with
    | some none => .ok (s, some none)
    | some (some pindex) =>
      if (s.tree.nStatus pindex).failed then .ok (s, none) else .ok (s, some (some pindex))
    | none =>
      match s.mapBlockIndex.find (block.hashPrevBlock.getD null) with
      | none => .ok (s, none)
      | some none => .error .nullPointer
      | some (some pindexPrev) =>
        if (s.tree.nStatus pindexPrev).failed || !fChecks then .ok (s, none)
        else (addToBlockIndex null s block).map fun r => (r.1, some r.2)
  else (addToBlockIndex null s block).map fun r => (r.1, some r.2)

/-- A call that changes the tree only. -/
def withTree : Except (Halted ι) (BlockTree ι) → Except (MapFault ι) (BlockMap ι)
  | .ok tree => .ok { s with tree := tree }
  | .error h => .error (.halted h)

/-- A loop over the map that looks at every entry. -/
def walk : Except (MapFault ι) (BlockMap ι) :=
  if s.mapBlockIndex.any (·.2.isNone) then .error .nullPointer else .ok s

/-- One call of block processing. The callers of `AcceptBlockHeader` look at what they are handed. -/
def stepBlock : BlockCall ι → Except (MapFault ι) (BlockMap ι)
  | .acceptBlockHeader block fChecks => do
    let r ← acceptBlockHeader v null s block fChecks
    if r.2 = some none then .error .nullPointer else .ok r.1
  | .receivedBlockTransactions b nVtx file =>
    .ok { s with tree := s.tree.receivedBlockTransactions b nVtx file }
  | .activateBestChain => s.withTree (s.tree.activateBestChain v)
  | .invalidateBlock b => s.withTree (s.tree.invalidateBlock b) >>= walk
  | .resetBlockFailureFlags b => walk { s with tree := s.tree.resetBlockFailureFlags b }
  | .pruneOneBlockFile fileNumber => walk { s with tree := s.tree.pruneOneBlockFile fileNumber }
  | .lookup hash =>
    if s.mapBlockIndex.find hash = some none then .error .nullPointer else .ok s

end

/-! ## Null pointers -/

theorem lookup_null {v : Validator ι} {null hash : ι} {s : BlockMap ι}
    (h : s.mapBlockIndex.find hash = some none) :
    s.stepBlock v null (.lookup hash) = .error .nullPointer :=
  if_pos h

omit [LinearOrder ι] in
/-- A walk does not get past a null pointer. -/
theorem walk_null {hash : ι} {s : BlockMap ι} (h : (hash, none) ∈ s.mapBlockIndex) :
    s.walk = .error .nullPointer := by
  unfold walk
  rw [if_pos]
  exact any_eq_true.mpr ⟨_, h, rfl⟩

/-! ## Without null pointers -/

/-- Every key leads to an entry, and the entry knows the key as its hash. -/
def Sound (s : BlockMap ι) : Prop :=
  ∀ key pindex, (key, pindex) ∈ s.mapBlockIndex → ∃ b, pindex = some b ∧ s.phashBlock b = some key

/-- Entries are named by their keys. -/
def Named (s : BlockMap ι) : Prop :=
  ∀ e ∈ s.mapBlockIndex, e.2 = some e.1 ∧ s.phashBlock e.1 = some e.1

variable {v : Validator ι} {null : ι} {s s' : BlockMap ι}

omit [LinearOrder ι] in
theorem Named.sound (h : s.Named) : s.Sound := by
  intro key pindex hmem
  exact ⟨key, h _ hmem⟩

theorem Named.find (h : s.Named) {key : ι} {pindex : Option ι}
    (hfind : s.mapBlockIndex.find key = some pindex) : pindex = some key :=
  (h _ (StdMap.mem_of_find hfind)).1

omit [LinearOrder ι] in
theorem Named.with_tree (h : s.Named) (tree : BlockTree ι) : { s with tree := tree }.Named := h

theorem named_init (hashGenesisBlock : ι) (tree : BlockTree ι) :
    (init hashGenesisBlock tree).Named := by
  intro e he
  rw [init, mem_singleton] at he
  rw [he]
  exact ⟨rfl, if_pos rfl⟩

omit [LinearOrder ι] in
/-- A walk meets no null pointer. -/
theorem Named.walk_eq (h : s.Named) : s.walk = .ok s := by
  have hnone : ¬ s.mapBlockIndex.any (·.2.isNone) = true := by
    intro hany
    obtain ⟨e, he, hnull⟩ := any_eq_true.mp hany
    rw [(h e he).1] at hnull
    cases hnull
  rw [walk, if_neg hnone]

omit [LinearOrder ι] in
theorem Named.withTree (h : s.Named) (r : Except (Halted ι) (BlockTree ι)) :
    (∃ s', s.withTree r = .ok s' ∧ s'.Named) ∨ ∃ e, s.withTree r = .error (.halted e) := by
  cases r with
  | error e => exact .inr ⟨e, rfl⟩
  | ok tree => exact .inl ⟨_, rfl, h.with_tree tree⟩

/-- A new entry is named by its key, and its parent is an entry. -/
theorem Named.addToBlockIndex (h : s.Named) (null : ι) (block : Header ι) :
    ∃ s' pindex, s.addToBlockIndex null block = .ok (s', some pindex) ∧ s'.Named := by
  unfold BlockMap.addToBlockIndex
  cases hself : s.mapBlockIndex.find block.hash with
  | some pindex =>
    rw [h.find hself]
    exact ⟨s, block.hash, rfl, h⟩
  | none =>
    have hinsert : s.mapBlockIndex.insert block.hash (some block.hash) =
        (block.hash, some block.hash) :: s.mapBlockIndex := by
      rw [StdMap.insert, StdMap.count, hself]
      rfl
    have hnamed : BlockMap.Named {
        tree := s.tree.addToBlockIndex block
        mapBlockIndex := s.mapBlockIndex.insert block.hash (some block.hash)
        phashBlock := update s.phashBlock block.hash (some block.hash) } := by
      intro e he
      dsimp only at he ⊢
      rw [hinsert] at he
      rcases mem_cons.mp he with rfl | hold
      · exact ⟨rfl, update_self ..⟩
      · refine ⟨(h e hold).1, ?_⟩
        by_cases heq : e.1 = block.hash
        · rw [heq, update_self]
        · rw [update_of_ne heq]
          exact (h e hold).2
    dsimp only
    cases hprev : (s.mapBlockIndex.insert block.hash (some block.hash)).find
        (block.hashPrevBlock.getD null) with
    | none => exact ⟨_, block.hash, rfl, hnamed⟩
    | some pindexPrev =>
      cases pindexPrev with
      | none =>
        have := hnamed.find hprev
        cases this
      | some p => exact ⟨_, block.hash, rfl, hnamed⟩

theorem Named.acceptBlockHeader (h : s.Named) (block : Header ι) (fChecks : Bool) :
    ∃ s' r, s.acceptBlockHeader v null block fChecks = .ok (s', r) ∧ r ≠ some none ∧ s'.Named := by
  obtain ⟨s', pindex, hadd, hnamed⟩ := h.addToBlockIndex null block
  have hadded : (s.addToBlockIndex null block).map (fun r => (r.1, some r.2)) =
      .ok (s', some (some pindex)) := by
    rw [hadd]
    rfl
  unfold BlockMap.acceptBlockHeader
  split_ifs
  · cases hself : s.mapBlockIndex.find block.hash with
    | some self =>
      rw [h.find hself]
      dsimp only
      split_ifs
      · exact ⟨s, none, rfl, nofun, h⟩
      · exact ⟨s, _, rfl, nofun, h⟩
    | none =>
      cases hprev : s.mapBlockIndex.find (block.hashPrevBlock.getD null) with
      | none => exact ⟨s, none, rfl, nofun, h⟩
      | some prev =>
        rw [h.find hprev]
        dsimp only
        split_ifs
        · exact ⟨s, none, rfl, nofun, h⟩
        · exact ⟨s', _, hadded, nofun, hnamed⟩
  · exact ⟨s', _, hadded, nofun, hnamed⟩

/-- **Block processing** keeps the names, and no call meets a null pointer. -/
theorem Named.stepBlock (h : s.Named) (c : BlockCall ι) :
    (∃ s', s.stepBlock v null c = .ok s' ∧ s'.Named) ∨
      ∃ e, s.stepBlock v null c = .error (.halted e) := by
  cases c with
  | acceptBlockHeader block fChecks =>
    obtain ⟨s', r, hok, hr, hnamed⟩ := h.acceptBlockHeader block fChecks
    refine .inl ⟨s', ?_, hnamed⟩
    show (s.acceptBlockHeader v null block fChecks >>= _) = _
    rw [hok]
    exact if_neg hr
  | receivedBlockTransactions b nVtx file => exact .inl ⟨_, rfl, h.with_tree _⟩
  | activateBestChain =>
    rcases h.withTree (s.tree.activateBestChain v) with ⟨s', hok, hnamed⟩ | herr
    · exact .inl ⟨s', hok, hnamed⟩
    · exact .inr herr
  | invalidateBlock b =>
    have hstep : s.stepBlock v null (.invalidateBlock b) =
        (s.withTree (s.tree.invalidateBlock b) >>= walk) := rfl
    rw [hstep]
    rcases h.withTree (s.tree.invalidateBlock b) with ⟨s', hok, hnamed⟩ | ⟨e, herr⟩
    · rw [hok]
      exact .inl ⟨s', hnamed.walk_eq, hnamed⟩
    · rw [herr]
      exact .inr ⟨e, rfl⟩
  | resetBlockFailureFlags b => exact .inl ⟨_, (h.with_tree _).walk_eq, h.with_tree _⟩
  | pruneOneBlockFile fileNumber => exact .inl ⟨_, (h.with_tree _).walk_eq, h.with_tree _⟩
  | lookup hash =>
    have hfound : s.mapBlockIndex.find hash ≠ some none := by
      intro hnull
      have := h.find hnull
      cases this
    exact .inl ⟨s, if_neg hfound, h⟩

end BlockMap

end Chratos
