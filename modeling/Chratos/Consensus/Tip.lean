import Chratos.Consensus.DisconnectBlock

/-!
# Chratos — the coins under a moving tip (`main.cpp`: `ConnectTip`, `DisconnectTip`)

The node's coins change in three ways: a block is connected on top of the chain, the tip is
disconnected, and entries of the cache are written to the database and read again later. A block's
undo data are written the first time it is connected and never again; they are found by the
block's index entry, which is known here by the blocks on the way down to genesis.
-/

namespace Chratos

open Outcome List

variable {hash256 : List UInt8 → Uint256}

/-! ## Transactions of a chain -/

/-- Transactions with their heights, the last confirmed first. -/
abbrev TxLog := List (CTransaction × Nat)

/-- The transaction last confirmed under an id, and the height of its block. -/
def confirmed (hash256 : List UInt8 → Uint256) (log : TxLog) (txid : Uint256) :
    Option (CTransaction × Nat) :=
  log.find? fun e => e.1.getHash hash256 = txid

/-- The log after some transactions of a block at the given height. -/
def logTxs (nHeight : Nat) (vtx : List CTransaction) (log : TxLog) : TxLog :=
  (vtx.map fun tx => (tx, nHeight)).reverse ++ log

/-- The log of a chain. The blocks above genesis are given from the tip down. -/
def logOf : List CBlock → TxLog
  | [] => []
  | block :: rest => logTxs (rest.length + 1) block.vtx (logOf rest)

/-- Coins that were generated by a block. -/
def CTransaction.isGenerated (tx : CTransaction) : Bool := tx.isCoinBase || tx.isCoinStake

section

variable {log : TxLog} {nHeight : Nat}

theorem logTxs_append_singleton (vtx : List CTransaction) (tx : CTransaction) :
    logTxs nHeight (vtx ++ [tx]) log = (tx, nHeight) :: logTxs nHeight vtx log := by
  simp [logTxs]

theorem confirmed_cons_self (tx : CTransaction) :
    confirmed hash256 ((tx, nHeight) :: log) (tx.getHash hash256) = some (tx, nHeight) := by
  simp [confirmed]

variable {txid : Uint256} {e : CTransaction × Nat}

theorem confirmed_cons_of_ne {tx : CTransaction} (h : txid ≠ tx.getHash hash256) :
    confirmed hash256 ((tx, nHeight) :: log) txid = confirmed hash256 log txid := by
  rw [confirmed, find?_cons_of_neg]
  · rfl
  · simpa using fun heq => h heq.symm

/-- Heights in the log of a chain do not exceed the chain's. -/
theorem le_length_of_mem_logOf {blocks : List CBlock} (h : e ∈ logOf blocks) :
    e.2 ≤ blocks.length := by
  induction blocks with
  | nil => cases h
  | cons block rest ih =>
    rw [logOf, logTxs, mem_append, mem_reverse, mem_map] at h
    rcases h with ⟨tx, -, rfl⟩ | hrest
    · exact le_rfl
    · have := ih hrest
      rw [length_cons]
      omega

/-- What a block's log finds is a transaction of the block or of the chain below. -/
theorem confirmed_logTxs_cases {vtx : List CTransaction}
    (h : confirmed hash256 (logTxs nHeight vtx log) txid = some e) :
    (e.1 ∈ vtx ∧ e.2 = nHeight ∧ e.1.getHash hash256 = txid) ∨ e ∈ log := by
  have hmem := mem_of_find?_eq_some h
  have hhash := find?_some h
  rw [logTxs, mem_append, mem_reverse, mem_map] at hmem
  rcases hmem with ⟨tx, htx, rfl⟩ | hlog
  · exact .inl ⟨htx, rfl, by simpa using hhash⟩
  · exact .inr hlog

end

/-! ## The machine -/

/-- An entry that was written to the database and read again. Empty entries are erased, and an
entry that cannot be read counts as missing. -/
def CCoins.reload (keys : PubKeys) (c : CCoins) : CCoins :=
  if c.isPruned then CCoins.clear
  else ((unserCoins keys (serCoins keys c)).map Prod.fst).getD CCoins.clear

/-- The coins, the blocks above genesis from the tip down, and the undo data on disk. -/
structure ChainState where
  view : CCoinsView
  blocks : List CBlock
  undo : List CBlock → Option (List UInt8)

/-- With nothing but genesis, whose outputs are not added. -/
def ChainState.start (hashGenesisBlock : Uint256) : ChainState where
  view := { coins := fun _ => CCoins.clear, hashBlock := hashGenesisBlock }
  blocks := []
  undo := fun _ => none

/-- A call of `ConnectBlock` for the next block. -/
structure ConnectCall where
  env : Env
  nScriptCheckThreads : Nat
  block : CBlock
  state : CValidationState
  pindex : BlockPlace

def ConnectCall.run (call : ConnectCall) (view : CCoinsView) : Verdict Connected :=
  connectBlock call.env call.nScriptCheckThreads call.block call.state call.pindex view false

/-- What happens to the coins of a node. -/
inductive ChainAction where
  | connect (call : ConnectCall)
  | disconnect (env : Env) (state : CValidationState) (pindex : BlockPlace)
  /-- The entries of the given ids leave the cache. -/
  | reload (ids : Uint256 → Bool)

namespace ChainState

/-- The undo data of a block, if they were written and can be read. -/
def readUndo (keys : PubKeys) (s : ChainState) (blocks : List CBlock) : Option CBlockUndo :=
  (s.undo blocks).bind fun bytes => (unserBlockUndo keys bytes).map Prod.fst

/-- Undo data are only written where there are none. -/
def writeUndo (keys : PubKeys) (s : ChainState) (blocks : List CBlock) (blockundo : CBlockUndo) :
    List CBlock → Option (List UInt8) :=
  Function.update s.undo blocks (some ((s.undo blocks).getD (serBlockUndo keys blockundo)))

/-- One change; `none` when the call fails and the coins stay as they are. -/
def step (keys : PubKeys) (s : ChainState) : ChainAction → Option ChainState
  | .connect call =>
    match call.run s.view with
    | .error _ => none
    | .ok r => some {
        view := r.view
        blocks := call.block :: s.blocks
        undo := s.writeUndo keys (call.block :: s.blocks) r.blockundo }
  | .disconnect env state pindex =>
    match s.blocks with
    | [] => none
    | block :: rest =>
      match disconnectBlock env block state pindex s.view (s.readUndo keys (block :: rest)) with
      | .error _ => none
      | .ok t => if t.fClean then some { s with view := t.view, blocks := rest } else none
  | .reload ids => some { s with
      view := { s.view with
        coins := fun txid =>
          if ids txid then (s.view.coins txid).reload keys else s.view.coins txid } }

variable {keys : PubKeys} {s t : ChainState}

theorem step_connect_eq_some {call : ConnectCall} (h : s.step keys (.connect call) = some t) :
    ∃ r, call.run s.view = .ok r ∧ t = {
      view := r.view
      blocks := call.block :: s.blocks
      undo := s.writeUndo keys (call.block :: s.blocks) r.blockundo } := by
  rw [step] at h
  split at h
  · cases h
  · rename_i r hr
    injection h with h
    exact ⟨r, hr, h.symm⟩

theorem step_disconnect_eq_some {env : Env} {state : CValidationState} {pindex : BlockPlace}
    (h : s.step keys (.disconnect env state pindex) = some t) :
    ∃ block rest u, s.blocks = block :: rest ∧
      disconnectBlock env block state pindex s.view (s.readUndo keys (block :: rest)) = .ok u ∧
      u.fClean = true ∧ t = { s with view := u.view, blocks := rest } := by
  rw [step] at h
  split at h
  · cases h
  · rename_i block rest hblocks
    split at h
    · cases h
    · rename_i u hu
      split at h
      · rename_i hclean
        injection h with h
        exact ⟨block, rest, u, hblocks, hu, hclean, h.symm⟩
      · cases h

end ChainState

/-- What the callers of `ConnectBlock` and `DisconnectBlock` see to: the block goes on top of the
tip, the tip is in the block index at its height, and a block marked as checked has been checked.
The hash function and the network stay the same. -/
structure ConnectCall.Fits (hash256 : List UInt8 → Uint256) (s : ChainState) (call : ConnectCall) :
    Prop where
  hash256_eq : call.env.hash256 = hash256
  mainnet : call.env.fTestnet = false
  nHeight_eq : call.pindex.nHeight = s.blocks.length + 1
  nHeight_lt : call.pindex.nHeight < 2 ^ 31
  tip : ∃ pindexPrev, call.env.mapBlockIndex s.view.hashBlock = some pindexPrev ∧
    pindexPrev.nHeight = s.blocks.length
  not_genesis : call.env.blockHash call.block ≠ call.env.consensus.hashGenesisBlock
  checked : call.block.MarkEarned call.env call.state
  nVersion_int : ∀ tx ∈ call.block.vtx, IsInt32 tx.nVersion

def ChainAction.Fits (hash256 : List UInt8 → Uint256) (s : ChainState) : ChainAction → Prop
  | .connect call => call.Fits hash256 s
  | .disconnect env _ pindex => env.hash256 = hash256 ∧ pindex.nHeight = s.blocks.length
  | .reload _ => True

/-- A block that is connected has passed `CheckBlock`, now or before. -/
theorem ConnectCall.Fits.checkedBlock {s : ChainState}
    {call : ConnectCall} (h : call.Fits hash256 s) {r : Connected}
    (hrun : call.run s.view = .ok r) : CheckedBlock call.block := by
  obtain ⟨_, _, _, _, hpass, -⟩ := connectBlock_spec h.not_genesis hrun
  exact h.checked.checkedBlock hpass.check

end Chratos
