import Chratos.Consensus.CheckBlock
import Mathlib.Data.List.AList

/-!
# Chratos — compact blocks (`blockencodings.cpp`)

A block is announced by its header, its coinbase and six-byte identifiers of the other
transactions. The receiver looks the identifiers up in its memory pool, asks for what it has
not found and puts the block together again:

`SlotsOf` is what the scan keeps: a slot is empty or holds the block's own transaction. From it,
`initData_ofBlock` and `fillSlots_missing` say that the transactions always come out right; what is
left to ask is whether `CheckBlock` accepts what was put together.
-/

namespace Chratos

open Outcome Codec List Option

variable {i : Nat} {tx : CTransaction} {vtx pool : List CTransaction} {slot : Option CTransaction}

/-! ## Messages -/

/-- A call that does not return `READ_STATUS_OK`. -/
inductive ReadFailure where
  | READ_STATUS_INVALID
  | READ_STATUS_FAILED
  /-- It throws, or stops the process. -/
  | stopped (failure : Failure)
  /-- It does not come back. -/
  | loops
  deriving DecidableEq, Repr

/-- What reconstruction reads besides the message, the pool and the chain parameters.

* `sha256` and `sipHashUint256` are the hashes behind the short identifiers;
* `bucket n id` is the bucket of a key in an `std::unordered_map` made for `n` entries. Such a map
  holds `n` entries without rehashing. -/
structure RelayEnv extends Env where
  sha256 : List UInt8 → Uint256
  sipHashUint256 : UInt64 → UInt64 → Uint256 → UInt64
  bucket : Nat → UInt64 → Nat

def CBlockHeader.null : CBlockHeader := ⟨0, 0, 0, 0, 0, 0⟩

def CBlockHeader.isNull (header : CBlockHeader) : Bool := header.nBits = 0

def CTransaction.isNull (tx : CTransaction) : Bool := tx.vin.isEmpty && tx.vout.isEmpty

/-- The transaction of the default constructor. -/
def CTransaction.null : CTransaction where
  nVersion := 1
  nTime := 0
  vin := []
  vout := []
  nLockTime := 0

def MIN_TRANSACTION_BASE_SIZE : Nat := (CTransaction.null.serialize false).length

structure PrefilledTransaction where
  index : UInt16
  tx : CTransaction
  deriving DecidableEq, Repr

structure CBlockHeaderAndShortTxIDs where
  header : CBlockHeader
  nonce : UInt64
  shorttxids : List UInt64
  prefilledtxn : List PrefilledTransaction
  vchBlockSig : List UInt8
  deriving DecidableEq, Repr

/-- `uint256::GetUint64`. -/
def getUint64 (h : Uint256) (pos : Nat) : UInt64 := .ofBitVec (h.extractLsb' (64 * pos) 64)

variable (relay : RelayEnv)

/-- `GetShortID`, under the keys that `FillShortTxIDSelector` takes from header and nonce. -/
def RelayEnv.getShortID (header : CBlockHeader) (nonce : UInt64) (txhash : Uint256) : UInt64 :=
  let shorttxidhash := relay.sha256 (header.serialize ++ leBytes 8 nonce.toNat)
  relay.sipHashUint256 (getUint64 shorttxidhash 0) (getUint64 shorttxidhash 1) txhash &&&
    0xffffffffffff

/-- The identifier of a transaction in the announcement of a block. -/
def RelayEnv.shortID (header : CBlockHeader) (nonce : UInt64) (tx : CTransaction) : UInt64 :=
  relay.getShortID header nonce (relay.txHash tx)

namespace CBlockHeaderAndShortTxIDs

/-- The constructor from a block. Without a transaction the vector of `size() - 1` identifiers
cannot be made. -/
def ofBlock (nonce : UInt64) (block : CBlock) : Except ReadFailure CBlockHeaderAndShortTxIDs :=
  match block.vtx with
  | [] => .error (.stopped .thrown)
  | coinbase :: rest => .ok {
      header := block.toCBlockHeader
      nonce := nonce
      shorttxids := rest.map (relay.shortID block.toCBlockHeader nonce)
      prefilledtxn := [⟨0, coinbase⟩]
      vchBlockSig := block.vchBlockSig }

def blockTxCount (cmpctblock : CBlockHeaderAndShortTxIDs) : Nat :=
  cmpctblock.shorttxids.length + cmpctblock.prefilledtxn.length

end CBlockHeaderAndShortTxIDs

/-! ## Slots -/

/-- `txn_available`: a shared pointer for each transaction of the block. -/
abbrev Slots := List (Option CTransaction)

/-- One round over the prefilled transactions: `lastprefilledindex` and the slots. -/
def insertPrefilled (nShort : Nat) (s : Int × Slots) (p : PrefilledTransaction × Nat) :
    Except ReadFailure (Int × Slots) := do
  failIf p.1.tx.isNull .READ_STATUS_INVALID
  let lastprefilledindex := s.1 + (p.1.index.toNat + 1)
  failIf (65535 < lastprefilledindex) .READ_STATUS_INVALID
  failIf (nShort + p.2 < lastprefilledindex.toNat) .READ_STATUS_INVALID
  pure (lastprefilledindex, s.2.set lastprefilledindex.toNat (some p.1.tx))

/-- `while (txn_available[i + index_offset]) index_offset++`. The offset has sixteen bits: a loop
that has seen all its values sees them again. -/
def skipFilled (txn_available : Slots) (i : Nat) : Nat → UInt16 → Except ReadFailure UInt16
  | 0, _ => .error .loops
  | fuel + 1, index_offset =>
    match txn_available[i + index_offset.toNat]? with
    | none => .error (.stopped .asserted)
    | some none => .ok index_offset
    | some (some _) => skipFilled txn_available i fuel (index_offset + 1)

/-- The local `shorttxids` of `InitData`: from identifiers to slots. -/
abbrev ShortIDMap := AList fun _ : UInt64 => UInt16

/-- One round over the identifiers: `index_offset` and the map. -/
def insertShortID (nShort : Nat) (txn_available : Slots)
    (s : UInt16 × ShortIDMap) (p : UInt64 × Nat) : Except ReadFailure (UInt16 × ShortIDMap) := do
  let index_offset ← skipFilled txn_available p.2 (2 ^ 16) s.1
  let shorttxids := s.2.insert p.1 (.ofNat (p.2 + index_offset.toNat))
  failIf (12 < shorttxids.keys.countP fun id => relay.bucket nShort id = relay.bucket nShort p.1)
    .READ_STATUS_FAILED
  pure (index_offset, shorttxids)

/-! ## The pool

The missing transactions in their slots, and `CheckBlock` on the result (`fillBlock`).
-/

/-- What the scan of the pool changes. -/
structure Scan where
  txn_available : Slots
  have_txn : List Bool
  mempool_count : Nat
  deriving DecidableEq, Repr

/-- A transaction of the pool matches the identifier of a slot: the first is taken, at a second one
the slot is given up. -/
def Scan.offer (s : Scan) (slot : Nat) (tx : CTransaction) : Scan :=
  if s.have_txn[slot]? = some true then
    if (s.txn_available[slot]?.bind id).isSome then
      { s with txn_available := s.txn_available.set slot none, mempool_count := s.mempool_count - 1 }
    else s
  else
    { txn_available := s.txn_available.set slot (some tx)
      have_txn := s.have_txn.set slot true
      mempool_count := s.mempool_count + 1 }

/-- The loop over `vTxHashes`, whose entries pair a transaction with its hash. It ends early when
every slot has been found. -/
def scanPool (shortID : CTransaction → UInt64) (shorttxids : ShortIDMap) :
    List CTransaction → Scan → Scan
  | [], s => s
  | tx :: pool, s =>
    let s := match shorttxids.lookup (shortID tx) with
      | some slot => s.offer slot.toNat tx
      | none => s
    if s.mempool_count = shorttxids.keys.length then s else scanPool shortID shorttxids pool s

structure PartiallyDownloadedBlock where
  header : CBlockHeader := .null
  txn_available : Slots := []
  prefilled_count : Nat := 0
  mempool_count : Nat := 0
  deriving DecidableEq, Repr

namespace PartiallyDownloadedBlock

/-- `InitData`. -/
def initData (pool : List CTransaction) (partialBlock : PartiallyDownloadedBlock)
    (cmpctblock : CBlockHeaderAndShortTxIDs) : Except ReadFailure PartiallyDownloadedBlock := do
  failIf (cmpctblock.header.isNull ||
    (cmpctblock.shorttxids.isEmpty && cmpctblock.prefilledtxn.isEmpty)) .READ_STATUS_INVALID
  failIf (MAX_BLOCK_BASE_SIZE / MIN_TRANSACTION_BASE_SIZE < cmpctblock.blockTxCount)
    .READ_STATUS_INVALID
  failIf (!(partialBlock.header.isNull && partialBlock.txn_available.isEmpty)) (.stopped .asserted)
  let nShort := cmpctblock.shorttxids.length
  let filled ← cmpctblock.prefilledtxn.zipIdx.foldlM (insertPrefilled nShort)
    (-1, List.replicate cmpctblock.blockTxCount none)
  let ids ← cmpctblock.shorttxids.zipIdx.foldlM (insertShortID relay nShort filled.2) (0, ∅)
  failIf (ids.2.keys.length != nShort) .READ_STATUS_FAILED
  let scan := scanPool (relay.shortID cmpctblock.header cmpctblock.nonce) ids.2 pool {
    txn_available := filled.2
    have_txn := List.replicate filled.2.length false
    mempool_count := partialBlock.mempool_count }
  pure {
    header := cmpctblock.header
    txn_available := scan.txn_available
    prefilled_count := cmpctblock.prefilledtxn.length
    mempool_count := scan.mempool_count }

/-- `IsTxAvailable`, with its assertions. -/
def isTxAvailable (partialBlock : PartiallyDownloadedBlock) (index : Nat) :
    Except ReadFailure Bool := do
  failIf partialBlock.header.isNull (.stopped .asserted)
  match partialBlock.txn_available[index]? with
  | none => .error (.stopped .asserted)
  | some slot => .ok slot.isSome

/-- The transactions, from place `i` on, that are not available: what the receiver asks for and the
sender answers with. -/
def missingFrom (partialBlock : PartiallyDownloadedBlock) :
    Nat → List CTransaction → Except ReadFailure (List CTransaction)
  | _, [] => pure []
  | i, tx :: vtx => do
    let available ← partialBlock.isTxAvailable i
    let vtx_missing ← partialBlock.missingFrom (i + 1) vtx
    pure (if available then vtx_missing else tx :: vtx_missing)

/-- The loop of `FillBlock`: the transactions of the block and what is left of `vtx_missing`. -/
def fillSlots : Slots → List CTransaction →
    Except ReadFailure (List CTransaction × List CTransaction)
  | [], vtx_missing => pure ([], vtx_missing)
  | none :: _, [] => .error .READ_STATUS_INVALID
  | none :: slots, tx :: vtx_missing => do
    let r ← fillSlots slots vtx_missing
    pure (tx :: r.1, r.2)
  | some tx :: slots, vtx_missing => do
    let r ← fillSlots slots vtx_missing
    pure (tx :: r.1, r.2)

/-- `block = header`: a block with this header and nothing else. -/
def ofHeader (header : CBlockHeader) (vtx : List CTransaction) : CBlock where
  toCBlockHeader := header
  vtx := vtx
  vchBlockSig := []

/-- The end of `FillBlock`: the verdict of `CheckBlock`, with a state of its own, as a status. -/
def checkFilled (env : Env) (block : CBlock) : Except ReadFailure CBlock :=
  match checkBlock env block {} true true with
  | .ok () => .ok { block with fChecked := true }
  | .error (.rejected state) =>
    .error (if state.corruptionPossible then .READ_STATUS_FAILED else .READ_STATUS_INVALID)
  | .error failure => .error (.stopped failure)

def fillBlock (env : Env) (partialBlock : PartiallyDownloadedBlock)
    (vtx_missing : List CTransaction) : Except ReadFailure CBlock := do
  failIf partialBlock.header.isNull (.stopped .asserted)
  let filled ← fillSlots partialBlock.txn_available vtx_missing
  failIf (!filled.2.isEmpty) .READ_STATUS_INVALID
  checkFilled env (ofHeader partialBlock.header filled.1)

end PartiallyDownloadedBlock

open PartiallyDownloadedBlock in
/-- A block through the whole exchange: announced, looked up in the receiver's pool, completed with
the transactions that were missing. -/
def reconstruct (nonce : UInt64) (pool : List CTransaction) (block : CBlock) :
    Except ReadFailure CBlock := do
  let cmpctblock ← CBlockHeaderAndShortTxIDs.ofBlock relay nonce block
  let partialBlock ← initData relay pool {} cmpctblock
  let vtx_missing ← partialBlock.missingFrom 0 block.vtx
  partialBlock.fillBlock relay.toEnv vtx_missing

/-! ## What the slots hold -/

/-- Every slot is empty or holds the transaction of its place. -/
structure SlotsOf (vtx : List CTransaction) (slots : Slots) : Prop where
  length_eq : slots.length = vtx.length
  own : ∀ (j : Nat) (tx : CTransaction), slots[j]? = some (some tx) → vtx[j]? = some tx

section

variable {slots : Slots}

theorem SlotsOf.set (h : SlotsOf vtx slots) (j : Nat)
    (hslot : ∀ tx, slot = some tx → vtx[j]? = some tx) : SlotsOf vtx (slots.set j slot) := by
  refine ⟨by rw [length_set, h.length_eq], ?_⟩
  intro k tx hk
  rw [getElem?_set] at hk
  split at hk
  · rename_i hjk
    split at hk
    · rw [← hjk]
      exact hslot tx (some.inj hk)
    · cases hk
  · exact h.own k tx hk

theorem SlotsOf.offer {s : Scan} (h : SlotsOf vtx s.txn_available) {j : Nat}
    (htx : vtx[j]? = some tx) : SlotsOf vtx (s.offer j tx).txn_available := by
  unfold Scan.offer
  split
  · split
    · exact h.set j fun _ hnone => by cases hnone
    · exact h
  · apply h.set j
    rintro _ ⟨⟩
    exact htx

/-- The scan keeps the slots right, if what it matches is the transaction of the slot. -/
theorem SlotsOf.scanPool {shortID : CTransaction → UInt64} {shorttxids : ShortIDMap} {s : Scan}
    (h : SlotsOf vtx s.txn_available)
    (hmatch : ∀ tx ∈ pool, ∀ slot, shorttxids.lookup (shortID tx) = some slot →
      vtx[slot.toNat]? = some tx) :
    SlotsOf vtx (Chratos.scanPool shortID shorttxids pool s).txn_available := by
  induction pool generalizing s with
  | nil => exact h
  | cons tx pool ih =>
    have hrest : ∀ x ∈ pool, ∀ slot, shorttxids.lookup (shortID x) = some slot →
        vtx[slot.toNat]? = some x := fun x hx => hmatch x (mem_cons_of_mem _ hx)
    rw [Chratos.scanPool]
    cases hlookup : shorttxids.lookup (shortID tx) with
    | none =>
      dsimp only
      split
      · exact h
      · exact ih h hrest
    | some slot =>
      have hoffer := h.offer (hmatch tx mem_cons_self slot hlookup)
      dsimp only
      split
      · exact hoffer
      · exact ih hoffer hrest

end

/-! ## The map of identifiers -/

/-- Past the coinbase the offset is one, from the first identifier on. -/
theorem skipFilled_coinbase {coinbase : CTransaction} {n : Nat} (hi : i < n)
    {index_offset : UInt16} (hoffset : index_offset = if i = 0 then 0 else 1) :
    skipFilled (some coinbase :: List.replicate n none) i (2 ^ 16) index_offset = .ok 1 := by
  -- At offset one the slot is free, whatever fuel is left.
  have hfree : ∀ fuel, skipFilled (some coinbase :: replicate n none) i (fuel + 1) 1 =
      .ok 1 := by
    intro fuel
    have hslot : (some coinbase :: replicate n none)[i + (1 : UInt16).toNat]? = some none := by
      show (some coinbase :: replicate n none)[i + 1]? = some none
      rw [getElem?_cons_succ, getElem?_replicate, if_pos hi]
    rw [skipFilled, hslot]
  by_cases hzero : i = 0
  · rw [if_pos hzero] at hoffset
    subst hzero hoffset
    exact hfree 65534
  · rw [if_neg hzero] at hoffset
    subst hoffset
    exact hfree 65535

/-- The state of the map when the identifiers of `done` are in it. -/
structure MapOf (done : List (UInt64 × Nat)) (s : UInt16 × ShortIDMap) : Prop where
  offset : s.1 = if done.length = 0 then 0 else 1
  keys : s.2.keys = (done.map Prod.fst).reverse
  slot : ∀ id slot, s.2.lookup id = some slot → ∃ i, (id, i) ∈ done ∧ slot.toNat = i + 1

section

variable {relay} {coinbase : CTransaction} {shorttxids : List UInt64}
  (hlength : shorttxids.length < 65536) (hdistinct : shorttxids.Nodup)
  (hbucket : ∀ b, shorttxids.countP (relay.bucket shorttxids.length · = b) ≤ 12)
include hlength hdistinct hbucket

theorem MapOf.insertShortID {done rest : List (UInt64 × Nat)} {s : UInt16 × ShortIDMap}
    {id : UInt64} (h : MapOf done s) (hsplit : shorttxids.zipIdx = done ++ (id, i) :: rest) :
    ∃ t, Chratos.insertShortID relay shorttxids.length
        (some coinbase :: List.replicate shorttxids.length none) s (id, i) = .ok t ∧
      MapOf (done ++ [(id, i)]) t := by
  -- The place of an identifier is the number of those before it.
  have hi : i = done.length ∧ i < shorttxids.length := by
    have hget : shorttxids.zipIdx[done.length]? = some (id, i) := by simp [hsplit]
    rw [getElem?_zipIdx, map_eq_some_iff] at hget
    obtain ⟨x, hx, heq⟩ := hget
    have hlt := (List.getElem?_eq_some_iff.mp hx).1
    simp only [Prod.mk.injEq] at heq
    omega
  have hids : shorttxids = done.map Prod.fst ++ id :: rest.map Prod.fst := by
    rw [← zipIdx_map_fst 0 shorttxids, hsplit]
    simp
  have hfresh : id ∉ s.2.keys := by
    rw [hids, nodup_append] at hdistinct
    rw [h.keys, mem_reverse]
    intro hmem
    exact hdistinct.2.2 id hmem id mem_cons_self rfl
  have hkeys : (s.2.insert id (.ofNat (i + 1))).keys =
      ((done ++ [(id, i)]).map Prod.fst).reverse := by
    rw [AList.keys_insert, erase_of_not_mem hfresh, h.keys]
    simp
  have hskip : skipFilled (some coinbase :: replicate shorttxids.length none) i (2 ^ 16) s.1 =
      .ok 1 := skipFilled_coinbase hi.2 (by rw [h.offset, hi.1])
  refine ⟨(1, s.2.insert id (.ofNat (i + 1))), ?_, ?_, hkeys, ?_⟩
  · rw [Chratos.insertShortID, hskip]
    refine failIf_bind_eq_ok.mpr ⟨?_, rfl⟩
    -- The bucket holds no more than in the full map.
    have hle : (s.2.insert id (.ofNat (i + 1))).keys.countP
        (fun k => relay.bucket shorttxids.length k = relay.bucket shorttxids.length id) ≤
        shorttxids.countP (relay.bucket shorttxids.length · = relay.bucket shorttxids.length id) := by
      rw [hkeys, countP_reverse]
      rw [hids]
      simp
    exact decide_eq_false (not_lt.mpr (hle.trans (hbucket _)))
  · simp
  · intro k slot hlookup
    by_cases hk : k = id
    · subst hk
      rw [AList.lookup_insert, some.injEq] at hlookup
      refine ⟨i, by simp, ?_⟩
      rw [← hlookup]
      exact Nat.mod_eq_of_lt (by omega)
    · rw [AList.lookup_insert_ne hk] at hlookup
      obtain ⟨j, hj, hslot⟩ := h.slot k slot hlookup
      exact ⟨j, mem_append_left _ hj, hslot⟩

variable (relay coinbase) in
/-- The whole loop: distinct identifiers, each with the slot behind its place. -/
theorem foldlM_insertShortID :
    ∃ ids, shorttxids.zipIdx.foldlM (Chratos.insertShortID relay shorttxids.length
        (some coinbase :: List.replicate shorttxids.length none)) (0, ∅) = .ok ids ∧
      ids.2.keys.length = shorttxids.length ∧ ∀ id slot, ids.2.lookup id = some slot →
        ∃ i, shorttxids[i]? = some id ∧ slot.toNat = i + 1 := by
  have hempty : MapOf [] (0, ∅) := ⟨rfl, rfl, fun id slot h => by simp at h⟩
  obtain ⟨ids, hok, hmap⟩ := foldlM_ok_of_step MapOf hempty
    fun done p rest s hsplit h => h.insertShortID hlength hdistinct hbucket hsplit
  refine ⟨ids, hok, by simp [hmap.keys], ?_⟩
  intro id slot hlookup
  obtain ⟨i, hi, hslot⟩ := hmap.slot id slot hlookup
  exact ⟨i, mem_zipIdx_iff_getElem?.mp hi, hslot⟩

end

/-! ## A block's own announcement -/

/-- The conditions on block, nonce and pool under which reconstruction is meant to work. -/
structure Announceable (relay : RelayEnv) (nonce : UInt64) (pool : List CTransaction)
    (block : CBlock) : Prop where
  count_le : block.vtx.length ≤ 65536
  distinct : (block.vtx.tail.map (relay.shortID block.toCBlockHeader nonce)).Nodup
  bucket_le : ∀ b, (block.vtx.tail.map (relay.shortID block.toCBlockHeader nonce)).countP
    (relay.bucket block.vtx.tail.length · = b) ≤ 12
  apart : ∀ tx ∈ pool, tx ∉ block.vtx.tail → ∀ own ∈ block.vtx.tail,
    relay.shortID block.toCBlockHeader nonce tx ≠ relay.shortID block.toCBlockHeader nonce own

section

variable {relay : RelayEnv} {nonce : UInt64} {block : CBlock}
  {coinbase : CTransaction} {rest : List CTransaction} {cmpctblock : CBlockHeaderAndShortTxIDs}
  (h : Announceable relay nonce pool block) (hvtx : block.vtx = coinbase :: rest)
  (hcoinbase : coinbase.isNull = false) (hbits : block.nBits ≠ 0)

include h hvtx in
/-- What the scan matches is the transaction of the slot. -/
theorem Announceable.match_eq (htx : tx ∈ pool)
    (hi : (rest.map (relay.shortID block.toCBlockHeader nonce))[i]? =
      some (relay.shortID block.toCBlockHeader nonce tx)) : block.vtx[i + 1]? = some tx := by
  rw [getElem?_map, map_eq_some_iff] at hi
  obtain ⟨own, hget, hid⟩ := hi
  have hdistinct := h.distinct
  have hapart := h.apart tx htx
  rw [hvtx, tail_cons] at hdistinct hapart
  have hown : own ∈ rest := mem_of_getElem? hget
  have hmem : tx ∈ rest := by
    by_contra hout
    exact hapart hout own hown hid.symm
  have heq : own = tx := inj_on_of_nodup_map hdistinct hown hmem hid
  rw [hvtx, getElem?_cons_succ, hget, heq]

include h hvtx hcoinbase hbits in
/-- **The slots of a block's own announcement.** -/
theorem initData_ofBlock
    (hmsg : CBlockHeaderAndShortTxIDs.ofBlock relay nonce block = .ok cmpctblock) :
    ∃ partialBlock, PartiallyDownloadedBlock.initData relay pool {} cmpctblock = .ok partialBlock ∧
      partialBlock.header = block.toCBlockHeader ∧
      SlotsOf block.vtx partialBlock.txn_available := by
  have hcount := h.count_le
  have hdistinct := h.distinct
  have hbucket := h.bucket_le
  rw [hvtx, tail_cons] at hdistinct hbucket
  rw [hvtx, length_cons] at hcount
  simp only [CBlockHeaderAndShortTxIDs.ofBlock, hvtx, Except.ok.injEq] at hmsg
  have hlength : (rest.map (relay.shortID block.toCBlockHeader nonce)).length = rest.length :=
    length_map _
  obtain ⟨ids, hids, hsize, hslot⟩ := foldlM_insertShortID relay coinbase
    (by rw [hlength]; omega) hdistinct (by rw [hlength]; exact hbucket)
  rw [hlength] at hids hsize
  -- The coinbase is prefilled; every other slot is free.
  have hfilled : cmpctblock.prefilledtxn.zipIdx.foldlM (insertPrefilled rest.length)
      (-1, replicate cmpctblock.blockTxCount none) =
      .ok (0, some coinbase :: replicate rest.length none) := by
    rw [← hmsg]
    simp [CBlockHeaderAndShortTxIDs.blockTxCount, insertPrefilled, hcoinbase, failIf, bind,
      Except.bind, pure, Except.pure, replicate_succ]
  have hslots : SlotsOf block.vtx (some coinbase :: replicate rest.length none) := by
    refine ⟨by simp [hvtx], ?_⟩
    intro j tx hj
    cases j with
    | zero => simpa [hvtx] using hj
    | succ j => simp [getElem?_replicate] at hj
  have hscan : SlotsOf block.vtx (scanPool (relay.shortID block.toCBlockHeader nonce) ids.2 pool
      ⟨some coinbase :: replicate rest.length none, replicate (rest.length + 1) false,
        0⟩).txn_available := by
    apply hslots.scanPool
    intro tx htx slot hlookup
    obtain ⟨i, hi, heq⟩ := hslot _ slot hlookup
    rw [heq]
    exact h.match_eq hvtx htx hi
  generalize hfinal : scanPool (relay.shortID block.toCBlockHeader nonce) ids.2 pool
    ⟨some coinbase :: replicate rest.length none, replicate (rest.length + 1) false, 0⟩ =
    scan at hscan
  subst hmsg
  refine ⟨⟨block.toCBlockHeader, scan.txn_available, 1, scan.mempool_count⟩, ?_, rfl, hscan⟩
  refine failIf_bind_eq_ok.mpr ⟨by simp [CBlockHeader.isNull, hbits], ?_⟩
  refine failIf_bind_eq_ok.mpr ⟨?_, ?_⟩
  · have hmax : MAX_BLOCK_BASE_SIZE / MIN_TRANSACTION_BASE_SIZE = 142857 := by decide +kernel
    rw [hmax, decide_eq_false_iff_not, CBlockHeaderAndShortTxIDs.blockTxCount, hlength]
    dsimp only [length_singleton]
    omega
  refine failIf_bind_eq_ok.mpr ⟨rfl, bind_eq_ok.mpr ⟨_, by rw [hlength]; exact hfilled, ?_⟩⟩
  refine bind_eq_ok.mpr ⟨ids, by rw [hlength]; exact hids, failIf_bind_eq_ok.mpr ⟨?_, ?_⟩⟩
  · rw [hsize, hlength, bne_self_eq_false]
  · rw [length_cons, length_replicate, hfinal]
    rfl

/-! ## The missing transactions -/

variable {partialBlock : PartiallyDownloadedBlock} {slots : Slots}

theorem PartiallyDownloadedBlock.isTxAvailable_eq (hheader : partialBlock.header.isNull = false)
    (hslot : partialBlock.txn_available[i]? = some slot) :
    partialBlock.isTxAvailable i = .ok slot.isSome := by
  refine failIf_bind_eq_ok.mpr ⟨hheader, ?_⟩
  rw [hslot]

theorem SlotsOf.cons (h : SlotsOf (tx :: vtx) (slot :: slots)) :
    (slot = none ∨ slot = some tx) ∧ SlotsOf vtx slots := by
  refine ⟨?_, Nat.succ.inj h.length_eq, fun j x hj => h.own (j + 1) x hj⟩
  cases slot with
  | none => exact .inl rfl
  | some x =>
    have hown := h.own 0 x rfl
    exact .inr hown.symm

/-- What is asked for is what `FillBlock` needs, in the order in which it takes it. -/
theorem fillSlots_missing (hheader : partialBlock.header.isNull = false) (h : SlotsOf vtx slots)
    (i : Nat) (hdrop : partialBlock.txn_available.drop i = slots) :
    ∃ vtx_missing, partialBlock.missingFrom i vtx = .ok vtx_missing ∧
      PartiallyDownloadedBlock.fillSlots slots vtx_missing = .ok (vtx, []) := by
  induction vtx generalizing slots i with
  | nil =>
    rw [eq_nil_of_length_eq_zero h.length_eq]
    exact ⟨[], rfl, rfl⟩
  | cons tx vtx ih =>
    cases slots with
    | nil => cases h.length_eq
    | cons slot slots =>
      obtain ⟨hslot, hrest⟩ := h.cons
      have hget : partialBlock.txn_available[i]? = some slot := by
        rw [← head?_drop, hdrop, head?_cons]
      have hnext : partialBlock.txn_available.drop (i + 1) = slots := by
        rw [← tail_drop, hdrop, tail_cons]
      obtain ⟨vtx_missing, hmissing, hfill⟩ := ih hrest (i + 1) hnext
      have havailable := PartiallyDownloadedBlock.isTxAvailable_eq hheader hget
      rw [PartiallyDownloadedBlock.missingFrom, havailable, hmissing]
      -- An empty slot takes the next missing transaction, a full one keeps its own.
      rcases hslot with rfl | rfl
      · refine ⟨tx :: vtx_missing, rfl, ?_⟩
        rw [PartiallyDownloadedBlock.fillSlots, hfill]
        rfl
      · refine ⟨vtx_missing, rfl, ?_⟩
        rw [PartiallyDownloadedBlock.fillSlots, hfill]
        rfl

include h hvtx hcoinbase hbits in
/-- **The exchange.** Only the last check is left: of a block with the header and the transactions
of the original, and nothing else. -/
theorem reconstruct_eq :
    reconstruct relay nonce pool block = PartiallyDownloadedBlock.checkFilled relay.toEnv
      (PartiallyDownloadedBlock.ofHeader block.toCBlockHeader block.vtx) := by
  obtain ⟨cmpctblock, hmsg⟩ :
      ∃ cmpctblock, CBlockHeaderAndShortTxIDs.ofBlock relay nonce block = .ok cmpctblock := by
    rw [CBlockHeaderAndShortTxIDs.ofBlock, hvtx]
    exact ⟨_, rfl⟩
  obtain ⟨partialBlock, hinit, hheader, hslots⟩ := initData_ofBlock h hvtx hcoinbase hbits hmsg
  have hnull : partialBlock.header.isNull = false := by
    rw [hheader]
    exact decide_eq_false hbits
  obtain ⟨vtx_missing, hmissing, hfill⟩ := fillSlots_missing hnull hslots 0 drop_zero
  rw [reconstruct, hmsg]
  show (PartiallyDownloadedBlock.initData relay pool {} cmpctblock >>= _) = _
  rw [hinit]
  show (partialBlock.missingFrom 0 block.vtx >>= _) = _
  rw [hmissing]
  show partialBlock.fillBlock relay.toEnv vtx_missing = _
  rw [PartiallyDownloadedBlock.fillBlock, hnull, hfill, hheader]
  rfl

end

end Chratos
