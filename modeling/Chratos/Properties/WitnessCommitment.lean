import Chratos.Consensus.Stripped
import Chratos.Properties.Conservation

/-!
# Chratos — what the witness commitment binds

With segregated witnesses in force, an output of the coinbase commits to the root of a tree over the
witness hashes. The check of it leaves out the second transaction of every block, for it expects a
coinstake there and the coinstake's witness to be covered by nothing.
-/

namespace Chratos

open Outcome Codec List CTransaction

variable {hash256 : List UInt8 → Uint256} {block : CBlock} {tx : CTransaction}

/-! ## What is checked and hashed -/

/-- The block passes `CheckBlock` and `ContextualCheckBlock` on top of `chain`, and has not been
marked as checked before. -/
structure PassesChecks (env : Env) (state : CValidationState) (chain : PrevChain)
    (block : CBlock) : Prop where
  fresh : block.fChecked = false
  checkBlock : checkBlock env block state true true = .ok ()
  contextual : contextualCheckBlock env block state chain = .ok ()

/-- The leaves of the tree that is checked against the commitment. -/
def witnessLeaves (hash256 : List UInt8 → Uint256) (block : CBlock) : List Uint256 :=
  let hashes := (block.vtx.drop 2).map (getWitnessHash hash256)
  0 :: hashes ++ List.replicate (block.vtx.length - 1 - hashes.length) 0

theorem length_witnessLeaves
    (hne : block.vtx ≠ []) : (witnessLeaves hash256 block).length = block.vtx.length := by
  have hpos := length_pos_iff.mpr hne
  rw [witnessLeaves, length_append, length_cons, length_replicate, length_map, length_drop]
  omega

/-- The coinbase's only witness item. -/
def witnessNonce (block : CBlock) : List UInt8 :=
  match block.vtx.head?.map wit with
  | some [[nonce]] => nonce
  | _ => []

/-- The strings that are hashed for the merkle root and for the commitment. -/
def CBlock.hashedStrings (hash256 : List UInt8 → Uint256) (block : CBlock) : List (List UInt8) :=
  block.txStrings hash256 ++ (block.vtx.drop 2).map (CTransaction.serialize · true) ++
    merkleStrings hash256 (witnessLeaves hash256 block) ++
    [serUint256 (blockWitnessMerkleRoot hash256 block) ++ witnessNonce block]

section

variable {s : List UInt8}

theorem CBlock.txStrings_subset (h : s ∈ block.txStrings hash256) :
    s ∈ block.hashedStrings hash256 :=
  mem_append_left _ (mem_append_left _ (mem_append_left _ h))

theorem CBlock.witness_mem_hashedStrings (h : tx ∈ block.vtx.drop 2) :
    tx.serialize true ∈ block.hashedStrings hash256 :=
  mem_append_left _ (mem_append_left _ (mem_append_right _ (mem_map_of_mem h)))

theorem CBlock.witnessTree_subset (h : s ∈ merkleStrings hash256 (witnessLeaves hash256 block)) :
    s ∈ block.hashedStrings hash256 :=
  mem_append_left _ (mem_append_right _ h)

theorem CBlock.commitment_mem_hashedStrings :
    serUint256 (blockWitnessMerkleRoot hash256 block) ++ witnessNonce block ∈
      block.hashedStrings hash256 :=
  mem_append_right _ mem_cons_self

end

/-- There is an output the commitment is read from. -/
def CBlock.hasCommitment (block : CBlock) : Bool := (block.vtx.head?.bind witnessCommitment).isSome

section

variable {env : Env} {state : CValidationState} {chain : PrevChain} {block' : CBlock}

/-! ## What acceptance grants -/

/-- The parts of `ContextualCheckBlock`. -/
theorem contextualCheckBlock_eq_ok : contextualCheckBlock env block state chain = .ok () ↔
      ∃ coinbase, block.vtx.head? = some coinbase ∧
        let nHeight := match chain with
          | [] => 0
          | pindexPrev :: _ => pindexPrev.nHeight + 1
        checkPlacement env block state chain nHeight = .ok () ∧
        (2 ≤ block.nVersion && isSuperMajority env.consensus 2 chain &&
          !(coinbase.vin.head?.any fun i => (pushHeight nHeight).isPrefixOf i.scriptSig)) = false ∧
        checkWitness env block coinbase chain state = .ok () ∧
        block.getBlockWeight ≤ MAX_BLOCK_WEIGHT ∧
        (block.isProofOfStake && coinbase.vout.any (paysWithoutArray coinbase)) = false := by
  simp only [contextualCheckBlock, bind_eq_ok, exists_unit, orAssert_eq_ok, rejectIf_eq_ok,
    decide_eq_false_iff_not, not_lt]
  constructor
  · rintro ⟨hplace, coinbase, hhead, hrest⟩
    exact ⟨coinbase, hhead, hplace, hrest⟩
  · rintro ⟨coinbase, hhead, hplace, hrest⟩
    exact ⟨hplace, coinbase, hhead, hrest⟩

/-- What `CheckBlock` has made sure of. -/
theorem checkBlock_eq_ok (hfresh : block.fChecked = false) :
    checkBlock env block state true true = .ok () ↔
      (block.isProofOfWork = true → checkBlockHeader env block state = .ok ()) ∧
      checkMerkleRoot env block state = .ok () ∧ checkShape block state = .ok () ∧
      checkBlockSignature env block = true ∧ checkTransactions block state = .ok () ∧
      (block.vtx.map getLegacySigOpCount).sum * WITNESS_SCALE_FACTOR ≤ MAX_BLOCK_SIGOPS_COST := by
  rw [checkBlock, if_neg (by simp [hfresh]), checkBlockBody]
  simp only [bind_ok_iff, onlyIf_eq_ok, true_implies, Bool.true_and, rejectIf_eq_ok,
    Bool.not_eq_false', decide_eq_false_iff_not, not_lt]

theorem checkMerkleRoot_eq_ok : checkMerkleRoot env block state = .ok () ↔
    block.hashMerkleRoot = (blockMerkleRoot env.hash256 block).1 ∧
      (blockMerkleRoot env.hash256 block).2 = false := by
  simp only [checkMerkleRoot, bind_ok_iff, rejectIf_eq_ok, bne_eq_false_iff_eq]

/-- The coinbase of a checked block is longer than a node of the tree. -/
theorem exists_long_coinbase (hfresh : block.fChecked = false)
    (hcheck : checkBlock env block state true true = .ok ()) :
    ∃ coinbase, block.vtx.head? = some coinbase ∧ 64 < (coinbase.serialize false).length := by
  obtain ⟨-, -, -, -, htxs, -⟩ := (checkBlock_eq_ok hfresh).mp hcheck
  obtain ⟨coinbase, rest, hvtx, hcb, -⟩ := (checkBlock_spec hfresh hcheck).shape
  have hround := forM_eq_ok.mp htxs coinbase (by rw [hvtx]; exact mem_cons_self)
  split at hround
  · cases hround
  · exact ⟨coinbase, by rw [hvtx, head?_cons], length_coinbase hcb hround⟩

/-- What an accepted block with a commitment looks like. -/
structure Committed (env : Env) (block : CBlock) (coinbase : CTransaction) (commitment : CTxOut) :
    Prop where
  head : block.vtx.head? = some coinbase
  size : 64 < (coinbase.serialize false).length
  vin_ne : ∀ tx ∈ block.vtx, tx.vin ≠ []
  root : block.hashMerkleRoot = (blockMerkleRoot env.hash256 block).1
  unmutated : (blockMerkleRoot env.hash256 block).2 = false
  found : witnessCommitment coinbase = some commitment
  wit : coinbase.wit = [[witnessNonce block]]
  nonce : (witnessNonce block).length = 32
  hash : serUint256 (env.hash256
    (serUint256 (blockWitnessMerkleRoot env.hash256 block) ++ witnessNonce block)) =
      (commitment.scriptPubKey.drop 6).take 32

variable {coinbase a b : CTransaction} {commitment : CTxOut} {xs ys rest : List CTransaction}
  {tx' first : CTransaction} {sig : List UInt8} (h : PassesChecks env state chain block)
  (hsegwit : env.versionBitsActive .DEPLOYMENT_SEGWIT chain = true)
  (hcommit : block.hasCommitment = true)

theorem checkWitnessCommitment_eq_ok :
    checkWitnessCommitment env block coinbase commitment state = .ok () ↔
      ∃ nonce, coinbase.wit = [[nonce]] ∧ nonce.length = 32 ∧
        serUint256 (env.hash256 (serUint256 (blockWitnessMerkleRoot env.hash256 block) ++ nonce)) =
          (commitment.scriptPubKey.drop 6).take 32 := by
  unfold checkWitnessCommitment
  split
  · rename_i nonce hwit
    simp only [bind_ok_iff, rejectIf_eq_ok, decide_eq_false_iff_not, not_not, hwit,
      cons.injEq, and_true]
    constructor
    · intro h
      exact ⟨nonce, rfl, h⟩
    · rintro ⟨nonce', rfl, h⟩
      exact h
  · rename_i hshape
    simp only [reduceCtorEq, false_iff, not_exists, not_and]
    intro nonce hwit
    exact absurd hwit (hshape nonce)

include hsegwit hcommit in
/-- A block with a commitment that has passed `CheckBlock` and the check of the commitment. -/
theorem committed_of_checkWitness (hfresh : block.fChecked = false)
    (hcheck : checkBlock env block state true true = .ok ()) (hhead : block.vtx.head? = some coinbase)
    (hwitness : checkWitness env block coinbase chain state = .ok ()) :
    ∃ commitment, Committed env block coinbase commitment := by
  obtain ⟨first, hfirst, hsize⟩ := exists_long_coinbase hfresh hcheck
  obtain rfl := Option.some.inj (hfirst.symm.trans hhead)
  obtain ⟨hroot, hunmutated⟩ := checkMerkleRoot_eq_ok.mp ((checkBlock_eq_ok hfresh).mp hcheck).2.1
  obtain ⟨commitment, hcommitment⟩ := Option.isSome_iff_exists.mp hcommit
  rw [hhead, Option.bind_some] at hcommitment
  rw [checkWitness, if_pos hsegwit, hcommitment] at hwitness
  obtain ⟨nonce, hwit, hlen, hhash⟩ := checkWitnessCommitment_eq_ok.mp hwitness
  have hnonce : witnessNonce block = nonce := by rw [witnessNonce, hhead, Option.map_some, hwit]
  exact ⟨commitment, hhead, hsize, fun tx htx => ((checkBlock_spec hfresh hcheck).txs tx htx).vin_ne,
    hroot, hunmutated, hcommitment, by rw [hnonce, hwit], by rw [hnonce, hlen], by rw [hnonce, hhash]⟩

include h hsegwit hcommit in
theorem PassesChecks.committed : ∃ coinbase commitment, Committed env block coinbase commitment := by
  obtain ⟨coinbase, hhead, -, -, hwitness, -⟩ := contextualCheckBlock_eq_ok.mp h.contextual
  exact ⟨coinbase, committed_of_checkWitness hsegwit hcommit h.fresh h.checkBlock hhead hwitness⟩

/-! ## What two blocks of one header share -/

theorem sameStripped_of_stripped_eq (h : a.stripped = b.stripped) : a.SameStripped b := by
  simp only [CTransaction.stripped, mk.injEq] at h
  obtain ⟨hversion, htime, hvin, hvout, -, hlock, htext⟩ := h
  exact ⟨hversion, htime, hvin, hvout, hlock, fun _ => htext⟩

theorem head_stripped_eq (h : xs.map CTransaction.stripped = ys.map CTransaction.stripped)
    (ha : xs.head? = some a) (hb : ys.head? = some b) : a.stripped = b.stripped := by
  have heads := congrArg head? h
  rw [head?_map, head?_map, ha, hb] at heads
  exact Option.some.inj heads

/-- Coinbases that differ in the witness only have the same commitment. -/
theorem witnessCommitment_eq (h : a.stripped = b.stripped) :
    witnessCommitment a = witnessCommitment b := by
  rw [witnessCommitment, witnessCommitment, (sameStripped_of_stripped_eq h).vout]

/-- The witness hashes cover the witnesses. -/
theorem witnessStacks_eq_of_hashes {S : Set (List UInt8)}
    (hinj : S.InjOn hash256) (hx : ∀ tx ∈ xs, tx.serialize true ∈ S)
    (hy : ∀ tx ∈ ys, tx.serialize true ∈ S) (hwirex : ∀ tx ∈ xs, tx.OnWire)
    (hwirey : ∀ tx ∈ ys, tx.OnWire) (hvin : ∀ tx ∈ xs, tx.vin ≠ [])
    (hstripped : xs.map CTransaction.stripped = ys.map CTransaction.stripped)
    (hhashes : xs.map (getWitnessHash hash256) = ys.map (getWitnessHash hash256)) :
    xs.map witnessStacks = ys.map witnessStacks := by
  refine map_eq_of_map_eq (fun a ha b hb heq => ?_) (map_prodMk_eq hstripped hhashes)
  obtain ⟨hsame, hhash⟩ := Prod.ext_iff.mp heq
  exact serialize_witness_inj (hwirex a ha).sized (hwirey b hb).sized (hvin a ha)
    (sameStripped_of_stripped_eq hsame) (hinj (hx a ha) (hy b hb) hhash)

/-- **What the header binds.** Two accepted blocks with a commitment and the same header agree on all
transactions but for the witnesses, on the nonce, and on the witnesses from the third transaction
on. -/
theorem witness_binding {coinbase' : CTransaction} {commitment' : CTxOut}
    (h : Committed env block coinbase commitment) (h' : Committed env block' coinbase' commitment')
    (hwire : ∀ tx ∈ block.vtx, tx.OnWire) (hwire' : ∀ tx ∈ block'.vtx, tx.OnWire)
    (hinj : Set.InjOn env.hash256
      {s | s ∈ block.hashedStrings env.hash256 ∨ s ∈ block'.hashedStrings env.hash256})
    (hheader : block'.toCBlockHeader = block.toCBlockHeader) :
    block.vtx.map CTransaction.stripped = block'.vtx.map CTransaction.stripped ∧
      witnessNonce block = witnessNonce block' ∧ (block.vtx.drop 2).map witnessStacks =
        (block'.vtx.drop 2).map witnessStacks := by
  have hroot : (blockMerkleRoot env.hash256 block).1 = (blockMerkleRoot env.hash256 block').1 := by
    rw [← h.root, ← h'.root]
    exact (congrArg CBlockHeader.hashMerkleRoot hheader).symm
  have hstripped := stripped_eq_of_merkleRoot hinj (fun s hs => .inl (CBlock.txStrings_subset hs))
    (fun s hs => .inr (CBlock.txStrings_subset hs)) hwire hwire'
    ⟨coinbase, h.head, h.size.ne'⟩ ⟨coinbase', h'.head, h'.size.ne'⟩ h.unmutated h'.unmutated hroot
  -- The coinbases have the same outputs, so the same commitment is read from both.
  have hcommitment : commitment = commitment' := by
    have hfound := h.found
    rw [witnessCommitment_eq (head_stripped_eq hstripped h.head h'.head)] at hfound
    exact Option.some.inj (hfound.symm.trans h'.found)
  have hhash := h.hash
  rw [hcommitment, ← h'.hash] at hhash
  have hstrings := hinj (.inl CBlock.commitment_mem_hashedStrings)
    (.inr CBlock.commitment_mem_hashedStrings)
    (determines_serUint256.view_eq trivial trivial hhash)
  obtain ⟨htree, hnonce⟩ := determines_serUint256 trivial trivial hstrings
  refine ⟨hstripped, hnonce, ?_⟩
  have hcount : block.vtx.length = block'.vtx.length := by
    simpa using congrArg length hstripped
  have hlength : (witnessLeaves env.hash256 block).length =
      (witnessLeaves env.hash256 block').length := by
    rw [length_witnessLeaves (ne_nil_of_mem (mem_of_head? h.head)),
      length_witnessLeaves (ne_nil_of_mem (mem_of_head? h'.head)), hcount]
  have hleaves : witnessLeaves env.hash256 block = witnessLeaves env.hash256 block' :=
    computeMerkleRoot_inj_of_length hinj (fun s hs => .inl (CBlock.witnessTree_subset hs))
      (fun s hs => .inr (CBlock.witnessTree_subset hs)) hlength htree
  have hhashes := (append_inj hleaves (by simp [hcount])).1
  refine witnessStacks_eq_of_hashes hinj (fun tx htx => .inl (CBlock.witness_mem_hashedStrings htx))
    (fun tx htx => .inr (CBlock.witness_mem_hashedStrings htx))
    (fun tx htx => hwire tx (mem_of_mem_drop htx))
    (fun tx htx => hwire' tx (mem_of_mem_drop htx))
    (fun tx htx => h.vin_ne tx (mem_of_mem_drop htx)) ?_ (cons.inj hhashes).2
  rw [map_drop, map_drop, hstripped]

/-! ## The room for another witness -/

/-- Transactions with the same witnesses weigh the same. -/
theorem txWeight_eq (hsame : a.stripped = b.stripped) (hstacks : a.witnessStacks = b.witnessStacks) :
    txWeight a = txWeight b := by
  have hstripped := sameStripped_of_stripped_eq hsame
  rw [txWeight, txWeight, hstripped.serialize, serialize_true_congr hstripped hstacks]

/-- A first witness weighs three units and one for each input, or more. -/
theorem txWeight_lt (hsame : a.stripped = b.stripped) (ha : a.hasWitness = false)
    (hb : b.hasWitness = true) : txWeight a + a.vin.length + 3 ≤ txWeight b := by
  have hstripped := sameStripped_of_stripped_eq hsame
  have hlt := length_serializeWitness_lt hb
  rw [txWeight, txWeight, serialize_true_of_not ha,
    length_serialize_true hb, hstripped.serialize, hstripped.vin]
  omega

/-- Nothing can be added: the second transaction has no witness, and no version of the block whose
signature verifies leaves room for the smallest one. -/
def NoRoom (env : Env) (block : CBlock) (tx : CTransaction) : Prop :=
  tx.hasWitness = false ∧ ∀ sig, checkBlockSignature env { block with vchBlockSig := sig } = true →
    MAX_BLOCK_WEIGHT < { block with vchBlockSig := sig }.getBlockWeight + tx.vin.length + 3

include h in
/-- The signature of an accepted block verifies. -/
theorem PassesChecks.signature : checkBlockSignature env block = true :=
  ((checkBlock_eq_ok h.fresh).mp h.checkBlock).2.2.2.1

include h in
theorem PassesChecks.weight : block.getBlockWeight ≤ MAX_BLOCK_WEIGHT := by
  obtain ⟨_, -, -, -, -, hweight, -⟩ := contextualCheckBlock_eq_ok.mp h.contextual
  exact hweight

/-- Where there is no room, another block of the header has no witness there either. -/
theorem NoRoom.hasWitness_eq {first' : CTransaction} {rest' : List CTransaction}
    (hroom : NoRoom env block tx) (h : PassesChecks env state chain block)
    (h' : PassesChecks env state chain block')
    (hheader : block'.toCBlockHeader = block.toCBlockHeader)
    (hvtx : block.vtx = first :: tx :: rest) (hvtx' : block'.vtx = first' :: tx' :: rest')
    (hstripped : block.vtx.map CTransaction.stripped = block'.vtx.map CTransaction.stripped)
    (hfirst : first.witnessStacks = first'.witnessStacks)
    (hrest : rest.map witnessStacks = rest'.map witnessStacks) : tx'.hasWitness = false := by
  by_contra hwitness
  have hsame := hstripped
  simp only [hvtx, hvtx', map_cons, cons.injEq] at hsame
  obtain ⟨hfirsts, hseconds, hrests⟩ := hsame
  -- Up to witnesses the other block is this one under its signature.
  have hblock : { block with vchBlockSig := block'.vchBlockSig }.stripped = block'.stripped := by
    have hfresh : block.fChecked = block'.fChecked := h.fresh.trans h'.fresh.symm
    rw [CBlock.stripped, CBlock.stripped, hstripped, hheader, hfresh]
  have hsig : checkBlockSignature env { block with vchBlockSig := block'.vchBlockSig } = true := by
    rw [← checkBlockSignature_stripped, hblock, checkBlockSignature_stripped]
    exact h'.signature
  have hlimit := hroom.2 _ hsig
  have hweights : rest.map txWeight = rest'.map txWeight := by
    refine map_eq_of_map_eq (fun a _ b _ heq => ?_) (map_prodMk_eq hrests hrest)
    exact txWeight_eq (Prod.ext_iff.mp heq).1 (Prod.ext_iff.mp heq).2
  have hsecond := txWeight_lt hseconds hroom.1 (by simpa using hwitness)
  have hlength : block.vtx.length = block'.vtx.length := by
    simpa using congrArg length hstripped
  have hweight := h'.weight
  rw [CBlock.getBlockWeight_eq, hvtx, map_cons, map_cons, sum_cons, sum_cons,
    ← hvtx, hlength, ← hheader, txWeight_eq hfirsts hfirst, hweights] at hlimit
  rw [CBlock.getBlockWeight_eq, hvtx', map_cons, map_cons, sum_cons, sum_cons, ← hvtx'] at hweight
  dsimp only at hlimit
  omega

/-! ## Another witness for the second transaction -/

/-- `CheckBlock` after the block signature has been exchanged. -/
theorem checkBlock_resigned (hfresh : block.fChecked = false)
    (h : checkBlock env block state true true = .ok ())
    (hsig : checkBlockSignature env { block with vchBlockSig := sig } = true)
    (hsize : ({ block with vchBlockSig := sig }.serialize false).length ≤ MAX_BLOCK_BASE_SIZE) :
    checkBlock env { block with vchBlockSig := sig } state true true = .ok () := by
  rw [checkBlock, if_neg (by simp [hfresh]), checkBlockBody] at h ⊢
  simp only [bind_ok_iff, checkShape, rejectIf_eq_ok, Bool.or_eq_false_iff] at h ⊢
  obtain ⟨hheader, hmerkle, ⟨hstake, hstakes, hlen, hshape⟩, -, hrest⟩ := h
  exact ⟨hheader, hmerkle, ⟨hstake, hstakes, ⟨hlen.1, by simpa using hsize⟩, hshape⟩,
    by rw [hsig]; rfl, hrest⟩

/-- The block with another second transaction and another signature. -/
def alterBlock (block : CBlock) (first tx' : CTransaction) (rest : List CTransaction)
    (sig : List UInt8) : CBlock :=
  { block with vtx := first :: tx' :: rest, vchBlockSig := sig }

theorem alterBlock_stripped (hvtx : block.vtx = first :: tx :: rest)
    (hsame : tx'.stripped = tx.stripped) : (alterBlock block first tx' rest sig).stripped =
      { block with vchBlockSig := sig }.stripped := by
  simp only [alterBlock, CBlock.stripped, hvtx, map_cons, hsame]

/-- None of the hashed strings shows the exchange. -/
theorem alterBlock_hashedStrings (hash256 : List UInt8 → Uint256)
    (hvtx : block.vtx = first :: tx :: rest) (hsame : tx'.stripped = tx.stripped) :
    (alterBlock block first tx' rest sig).hashedStrings hash256 = block.hashedStrings hash256 := by
  have hbytes : tx'.serialize false = tx.serialize false := by
    rw [← tx'.stripped_serialize, hsame, tx.stripped_serialize]
  simp only [CBlock.hashedStrings, CBlock.txStrings, blockWitnessMerkleRoot, witnessLeaves,
    witnessNonce, alterBlock, hvtx, map_cons, drop_succ_cons, drop_zero,
    head?_cons, length_cons, getHash, hbytes]

include h hsegwit hcommit in
/-- **The second witness is free.** -/
theorem PassesChecks.alter (hvtx : block.vtx = first :: tx :: rest)
    (hsame : tx'.stripped = tx.stripped)
    (hsig : checkBlockSignature env { block with vchBlockSig := sig } = true)
    (hweight : (alterBlock block first tx' rest sig).getBlockWeight ≤ MAX_BLOCK_WEIGHT) :
    PassesChecks env state chain (alterBlock block first tx' rest sig) := by
  have hstripped : (alterBlock block first tx' rest sig).stripped =
      { block with vchBlockSig := sig }.stripped := alterBlock_stripped hvtx hsame
  have hsize : ({ block with vchBlockSig := sig }.serialize false).length ≤ MAX_BLOCK_BASE_SIZE := by
    have := (alterBlock block first tx' rest sig).size_le_weight
    rw [← CBlock.stripped_serialize, hstripped, CBlock.stripped_serialize] at this
    have hscale : MAX_BLOCK_WEIGHT = MAX_BLOCK_BASE_SIZE * 4 := rfl
    omega
  refine ⟨h.fresh, ?_, ?_⟩
  · rw [← checkBlock_stripped, hstripped, checkBlock_stripped]
    exact checkBlock_resigned h.fresh h.checkBlock hsig hsize
  · obtain ⟨coinbase, hhead, hplace, hheight, hwitness, -, hpays⟩ :=
      contextualCheckBlock_eq_ok.mp h.contextual
    have hfirst : coinbase = first := by
      rw [hvtx, head?_cons, Option.some.injEq] at hhead
      exact hhead.symm
    subst hfirst
    have hstake : (alterBlock block coinbase tx' rest sig).isProofOfStake = block.isProofOfStake := by
      rw [← CBlock.stripped_isProofOfStake, hstripped, CBlock.stripped_isProofOfStake]
      rfl
    refine contextualCheckBlock_eq_ok.mpr ⟨coinbase, rfl, ?_, hheight, ?_, hweight, ?_⟩
    · rw [← checkPlacement_stripped, hstripped, checkPlacement_stripped]
      exact hplace
    · obtain ⟨commitment, hcommitment⟩ := Option.isSome_iff_exists.mp hcommit
      rw [hhead, Option.bind_some] at hcommitment
      rw [checkWitness, if_pos hsegwit, hcommitment] at hwitness ⊢
      have hroot : blockWitnessMerkleRoot env.hash256 (alterBlock block coinbase tx' rest sig) =
          blockWitnessMerkleRoot env.hash256 block := by
        simp only [blockWitnessMerkleRoot, alterBlock, hvtx, drop_succ_cons, drop_zero, length_cons]
      rw [checkWitnessCommitment_eq_ok] at hwitness ⊢
      rw [hroot]
      exact hwitness
    · rw [hstake]
      exact hpays

/-- The weight follows the second transaction. -/
theorem alterBlock_weight (hvtx : block.vtx = first :: tx :: rest) :
    (alterBlock block first tx' rest sig).getBlockWeight + txWeight tx =
      { block with vchBlockSig := sig }.getBlockWeight + txWeight tx' := by
  rw [CBlock.getBlockWeight_eq, CBlock.getBlockWeight_eq]
  simp only [alterBlock, hvtx, map_cons, sum_cons, length_cons]
  omega

/-- There is an input for one stack of witness items. -/
theorem CTransaction.oneWitness_le (hvin : tx.vin ≠ []) : 1 ≤ tx.vin.length :=
  length_pos_iff.mpr hvin

/-- The transaction with an empty item as the first input's witness. -/
def smallestWitness (tx : CTransaction) (hvin : tx.vin ≠ []) : CTransaction :=
  { tx with wit := [[[]]], wit_le := tx.oneWitness_le hvin }

theorem smallestWitness_weight (hvin : tx.vin ≠ []) (h : tx.hasWitness = false) :
    txWeight (smallestWitness tx hvin) = txWeight tx + tx.vin.length + 3 := by
  have hpos := length_pos_iff.mpr hvin
  have hbytes : (smallestWitness tx hvin).serialize false = tx.serialize false := rfl
  have hpad : ∀ n, (flatMap (serVector serBytes) (replicate n [])).length = n := by
    intro n
    induction n with
    | zero => rfl
    | succ n ih =>
      rw [replicate_succ, flatMap_cons, length_append, ih]
      exact add_comm 1 n
  have hwitness : (smallestWitness tx hvin).serializeWitness.length = tx.vin.length + 1 := by
    rw [serializeWitness, flatMap_append, length_append, hpad]
    show 2 + (tx.vin.length - 1) = _
    omega
  rw [txWeight, txWeight, length_serialize_true rfl, serialize_true_of_not h, hbytes, hwitness]
  omega

/-! ## The law -/

/-- Every accepted block with this header and a commitment has these witnesses, that of the coinbase
apart; the hash is injective on what is hashed for the two blocks. -/
def BindsWitnesses (env : Env) (state : CValidationState) (chain : PrevChain) (block : CBlock) :
    Prop :=
  ∀ block' : CBlock, (∀ tx ∈ block'.vtx, tx.OnWire) →
    block'.toCBlockHeader = block.toCBlockHeader → PassesChecks env state chain block' →
    block'.hasCommitment = true →
    Set.InjOn env.hash256
      {s | s ∈ block.hashedStrings env.hash256 ∨ s ∈ block'.hashedStrings env.hash256} →
    ∀ i, 1 ≤ i → block'.vtx[i]?.map witnessStacks = block.vtx[i]?.map witnessStacks

theorem exists_second {α : Type} : ∀ {l : List α}, 1 < l.length → ∃ a b rest, l = a :: b :: rest
  | a :: b :: rest, _ => ⟨a, b, rest, rfl⟩

variable (hwire : ∀ tx ∈ block.vtx, tx.OnWire)
  (hinj : Set.InjOn env.hash256 {s | s ∈ block.hashedStrings env.hash256})

include h hsegwit hcommit hwire hinj

section

variable (hbinds : BindsWitnesses env state chain block) (hvtx : block.vtx = first :: tx :: rest)

include hbinds hvtx

/-- If the witnesses are bound, any other witness that fits in the second place is the one that is
there. -/
theorem BindsWitnesses.second (tx' : CTransaction) (sig : List UInt8) (hwire' : tx'.OnWire)
    (hsame : tx'.stripped = tx.stripped)
    (hsig : checkBlockSignature env { block with vchBlockSig := sig } = true)
    (hweight : (alterBlock block first tx' rest sig).getBlockWeight ≤ MAX_BLOCK_WEIGHT) :
    tx'.hasWitness = tx.hasWitness := by
  have hwires : ∀ t ∈ (alterBlock block first tx' rest sig).vtx, t.OnWire := by
    rw [hvtx, forall_mem_cons, forall_mem_cons] at hwire
    exact forall_mem_cons.mpr ⟨hwire.1, forall_mem_cons.mpr ⟨hwire', hwire.2.2⟩⟩
  have hcommit' : (alterBlock block first tx' rest sig).hasCommitment = true := by
    rw [← hcommit, CBlock.hasCommitment, CBlock.hasCommitment, hvtx]
    rfl
  have hstrings : (alterBlock block first tx' rest sig).hashedStrings env.hash256 =
      block.hashedStrings env.hash256 := alterBlock_hashedStrings env.hash256 hvtx hsame
  have heq := hbinds _ hwires rfl (h.alter hsegwit hcommit hvtx hsame hsig hweight) hcommit'
    (by simpa only [hstrings, or_self] using hinj) 1 (le_refl 1)
  rw [hvtx] at heq
  rw [hasWitness_eq, hasWitness_eq, Option.some.inj heq]

/-- Bound witnesses leave no room. -/
theorem BindsWitnesses.noRoom : NoRoom env block tx := by
  have hmem : tx ∈ block.vtx := by
    rw [hvtx]
    exact mem_cons_of_mem _ mem_cons_self
  have hsecond := hbinds.second h hsegwit hcommit hwire hinj hvtx
  have hsized := (hwire tx hmem).sized
  have hwitness : tx.hasWitness = false := by
    -- A witness could be left out.
    have hlight : txWeight tx.stripped ≤ txWeight tx := by
      exact Nat.add_le_add_left tx.length_serialize_le _
    have hweight : (alterBlock block first tx.stripped rest block.vchBlockSig).getBlockWeight +
        txWeight tx = block.getBlockWeight + txWeight tx.stripped := alterBlock_weight hvtx
    have hle := h.weight
    have hwire' : tx.stripped.OnWire :=
      ⟨{ hsized with stack_lt := forall_mem_nil _, item_lt := forall_mem_nil _ },
        (hwire tx hmem).strDZeel⟩
    exact (hsecond tx.stripped block.vchBlockSig hwire' rfl h.signature (by omega)).symm
  refine ⟨hwitness, fun sig hsig => ?_⟩
  by_contra hfits
  obtain ⟨coinbase, commitment, hcommitted⟩ := h.committed hsegwit hcommit
  have hvin := hcommitted.vin_ne tx hmem
  have hweight : (alterBlock block first (smallestWitness tx hvin) rest sig).getBlockWeight +
      txWeight tx = { block with vchBlockSig := sig }.getBlockWeight +
        txWeight (smallestWitness tx hvin) := alterBlock_weight hvtx
  rw [smallestWitness_weight hvin hwitness] at hweight
  have hstack : ∀ stack ∈ (smallestWitness tx hvin).wit, stack = [[]] := fun stack hstack =>
    mem_singleton.mp hstack
  have hwire' : (smallestWitness tx hvin).OnWire := ⟨{ hsized with
        stack_lt := fun stack hmem => by
          rw [hstack stack hmem]
          exact Nat.one_lt_two_pow (by decide)
        item_lt := fun stack hmem item hitem => by
          rw [hstack stack hmem] at hitem
          rw [mem_singleton.mp hitem]
          exact Nat.two_pow_pos 64 }, (hwire tx hmem).strDZeel⟩
  have hsame := hsecond (smallestWitness tx hvin) sig hwire' rfl hsig (by omega)
  rw [hwitness] at hsame
  cases hsame

omit hbinds hinj in
/-- And where there is no room the witnesses are bound. -/
theorem NoRoom.bindsWitnesses (hroom : NoRoom env block tx) :
    BindsWitnesses env state chain block := by
  intro block' hwire' hheader h' hcommit' hinj i hi
  obtain ⟨coinbase, commitment, hcommitted⟩ := h.committed hsegwit hcommit
  obtain ⟨coinbase', commitment', hcommitted'⟩ := h'.committed hsegwit hcommit'
  obtain ⟨hstripped, hnonce, hdrop⟩ := witness_binding hcommitted hcommitted' hwire hwire' hinj hheader
  obtain ⟨first', tx', rest', hvtx'⟩ : ∃ a b l, block'.vtx = a :: b :: l := by
    refine exists_second ?_
    have := congrArg length hstripped
    rw [length_map, length_map, hvtx] at this
    rw [← this]
    exact Nat.succ_lt_succ (Nat.succ_pos _)
  have hsame := hstripped
  simp only [hvtx, hvtx', map_cons, cons.injEq] at hsame
  obtain ⟨hfirsts, hseconds, -⟩ := hsame
  have hrest : rest.map witnessStacks = rest'.map witnessStacks := by
    rw [hvtx, hvtx'] at hdrop
    exact hdrop
  have hcoinbase : first = coinbase := by
    have := hcommitted.head
    rwa [hvtx, head?_cons, Option.some.injEq] at this
  have hcoinbase' : first' = coinbase' := by
    have := hcommitted'.head
    rwa [hvtx', head?_cons, Option.some.injEq] at this
  have hfirst : first.witnessStacks = first'.witnessStacks := by
    rw [witnessStacks, witnessStacks,
      (sameStripped_of_stripped_eq hfirsts).vin, hcoinbase, hcoinbase', hcommitted.wit,
      hcommitted'.wit, hnonce]
  have hnone := hroom.hasWitness_eq h h' hheader hvtx hvtx' hstripped hfirst hrest
  have hsecond : tx'.witnessStacks = tx.witnessStacks := by
    rw [witnessStacks_eq_replicate hnone,
      witnessStacks_eq_replicate hroom.1, (sameStripped_of_stripped_eq hseconds).vin]
  rw [hvtx, hvtx', ← getElem?_map, ← getElem?_map]
  rw [map_cons, map_cons, map_cons, map_cons, hfirst, hsecond, hrest]

end

/-- **The witness commitment binds all witnesses** of an accepted block exactly if it has no second
transaction, or no room for another witness there. -/
theorem witness_commitment_binds_iff : BindsWitnesses env state chain block ↔
      block.vtx.length ≤ 1 ∨ ∃ tx, block.vtx[1]? = some tx ∧ NoRoom env block tx := by
  rcases lt_or_ge 1 block.vtx.length with hlen | hlen
  · obtain ⟨first, tx, rest, hvtx⟩ := exists_second hlen
    have htx : block.vtx[1]? = some tx := by rw [hvtx]; rfl
    constructor
    · intro hbinds
      exact .inr ⟨tx, htx, hbinds.noRoom h hsegwit hcommit hwire hinj hvtx⟩
    · rintro (hle | ⟨tx', htx', hroom⟩)
      · omega
      · rw [htx, Option.some.injEq] at htx'
        subst htx'
        exact hroom.bindsWitnesses h hsegwit hcommit hwire hvtx
  · refine ⟨fun _ => .inl hlen, fun _ => ?_⟩
    intro block' hwire' hheader h' hcommit' hinj' i hi
    obtain ⟨coinbase, commitment, hcommitted⟩ := h.committed hsegwit hcommit
    obtain ⟨coinbase', commitment', hcommitted'⟩ := h'.committed hsegwit hcommit'
    have hstripped := (witness_binding hcommitted hcommitted' hwire hwire' hinj' hheader).1
    have hlength : block.vtx.length = block'.vtx.length := by
      simpa using congrArg length hstripped
    rw [getElem?_eq_none (by omega), getElem?_eq_none (by omega)]

end

/-! ## A payment with two witnesses -/

/-- The main network with all deployments active. -/
def segwitEnv : Env := { sampleEnv 100 with versionBitsActive := fun _ _ => true }

/-- A coinbase that commits to the tree of a block of two transactions, in which nothing but zeros is
left of the witness hashes. -/
def committingCoinbase : CTransaction :=
  { sampleCoinbase 100 1532376000 0 [] with
    vout := [⟨0, []⟩, ⟨0, [OP_RETURN, 0x24, 0xaa, 0x21, 0xa9, 0xed] ++
      serUint256 (sampleHash (serUint256 (hashPair sampleHash 0 0) ++ List.replicate 32 0))⟩]
    wit := [[List.replicate 32 0]]
    wit_le := Nat.le_refl 1 }

/-- A proof-of-work block with a payment and a witness for it. -/
def witnessedBlock (stack : List (List UInt8)) : CBlock :=
  sampleBlock 100 1532376000 0x1f00ffff [] [committingCoinbase,
    { samplePayment 0 1532376000 [0x51] COIN with wit := [stack], wit_le := Nat.le_refl 1 }]

theorem witnessedBlock_passes : ∀ stack ∈ [[], [[1]]],
    PassesChecks segwitEnv {} (sampleChain 100) (witnessedBlock stack) := by
  have hcheck : ∀ stack ∈ [[], [[1]]],
      accepts (checkBlock segwitEnv (witnessedBlock stack) {} true true) = true ∧
        accepts (contextualCheckBlock segwitEnv (witnessedBlock stack) {} (sampleChain 100)) =
          true := by decide +kernel
  intro stack hstack
  obtain ⟨hblock, hcontext⟩ := hcheck stack hstack
  exact ⟨rfl, (accepts_iff.mp hblock).choose_spec, (accepts_iff.mp hcontext).choose_spec⟩

theorem witnessedBlock_injOn : ∀ s ∈ (witnessedBlock [[1]]).hashedStrings sampleHash,
    ∀ t ∈ (witnessedBlock [[1]]).hashedStrings sampleHash, sampleHash s = sampleHash t → s = t := by
  decide +kernel

theorem witnessedBlock_onWire : ∀ tx ∈ (witnessedBlock [[1]]).vtx, tx.OnWire := by
  decide +kernel

/-- Nothing binds the witness of the payment. -/
theorem witnessedBlock_not_bound :
    ¬BindsWitnesses segwitEnv {} (sampleChain 100) (witnessedBlock [[1]]) := by
  have hiff := witness_commitment_binds_iff (witnessedBlock_passes [[1]] (by decide)) rfl
    (by decide +kernel) witnessedBlock_onWire
    (fun s hs t ht => witnessedBlock_injOn s hs t ht)
  rw [hiff]
  rintro (hlen | ⟨tx, htx, hroom⟩)
  · exact absurd hlen (by decide)
  · have hwitness : ((witnessedBlock [[1]]).vtx[1]?.map hasWitness) = some true := by
      decide +kernel
    rw [htx, Option.map_some, hroom.1] at hwitness
    cases hwitness

/-- The payment with a witness and without: both blocks are accepted, they have one header and one
commitment, and all that is hashed for them is the same. -/
theorem second_witness_unbound :
    PassesChecks segwitEnv {} (sampleChain 100) (witnessedBlock [[1]]) ∧
    PassesChecks segwitEnv {} (sampleChain 100) (witnessedBlock []) ∧
    (witnessedBlock []).toCBlockHeader = (witnessedBlock [[1]]).toCBlockHeader ∧
    (witnessedBlock [[1]]).hasCommitment = true ∧ (witnessedBlock []).hasCommitment = true ∧
    (witnessedBlock []).hashedStrings sampleHash = (witnessedBlock [[1]]).hashedStrings sampleHash ∧
    (∀ s ∈ (witnessedBlock [[1]]).hashedStrings sampleHash,
      ∀ t ∈ (witnessedBlock [[1]]).hashedStrings sampleHash, sampleHash s = sampleHash t → s = t) ∧
    (witnessedBlock []).vtx[1]?.map witnessStacks ≠
      (witnessedBlock [[1]]).vtx[1]?.map witnessStacks :=
  ⟨witnessedBlock_passes _ (by decide), witnessedBlock_passes _ (by decide), by decide +kernel,
    by decide +kernel, by decide +kernel, by decide +kernel, witnessedBlock_injOn,
    by decide +kernel⟩

end Chratos
