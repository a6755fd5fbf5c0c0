import Chratos.Consensus.AcceptBlockHeader
import Chratos.Consensus.Alike
import Chratos.Properties.WitnessCommitment

/-!
# Chratos — marks on blocks that failed (`main.cpp`: `AcceptBlock`, `InvalidBlockFound`)

A block that is found invalid leaves `BLOCK_FAILED_VALID` on the index entry of its header, and the
header is refused from then on, whatever comes with it. The mark must therefore never depend on
something the header does not stand for. The checks keep it away where the data may have been
tampered with (`CorruptionPossible`): a wrong merkle root, a repeated run of transactions, a
witness that does not match. A bad block signature leaves the state alone.

What slips through is

* the length of the signature, which counts towards the size and weight limits
  (`oversized_signature_marks`: every valid block has a sibling that gets its header marked);
* the witness of the second transaction, which no commitment covers;
* a first transaction of 64 bytes, the size of a node of the merkle tree.

`failure_marks_bound` is the law for siblings that differ in none of these: a block within the limits,
with an ordinary first transaction and the second witness of its sibling.
-/

namespace Chratos

open Outcome CTransaction Option List

/-! ## Marks -/

/-- The verdict leaves a mark: the state is invalid, and not for possible corruption. -/
def marksFailed {α : Type} : Verdict α → Bool
  | .error (.rejected state) => state.isInvalid && !state.corruptionPossible
  | _ => false

section

variable {α β : Type} {v : Verdict α} {c : Bool}

/-- A mark of two checks in a row is one of either. -/
theorem not_marksFailed_bind {f : α → Verdict β} (hv : ¬marksFailed v = true)
    (hf : ∀ a, v = .ok a → ¬marksFailed (f a) = true) : ¬marksFailed (v >>= f) = true := by
  cases v with
  | ok a => exact hf a rfl
  | error failure => cases failure <;> exact hv

/-- A check that passes leaves no mark. -/
theorem marksFailed_ok {a : α} (h : v = .ok a) : ¬marksFailed v = true := by
  rw [h]
  exact Bool.false_ne_true

theorem marksFailed_rejectIf {state : CValidationState}
    (h : marksFailed (rejectIf c state) = true) :
    c = true ∧ state.isInvalid = true ∧ state.corruptionPossible = false := by
  cases c with
  | false => cases h
  | true => simpa [rejectIf, failIf, marksFailed] using h

theorem marksFailed_orAssert {o : Option α} : ¬marksFailed (orAssert o) = true := by
  cases o <;> exact Bool.false_ne_true

theorem not_marksFailed_corrupt (state : CValidationState) (level : Int) (code : Nat)
    (reason : String) : ¬marksFailed (rejectIf c (state.doS level code reason true)) = true := by
  intro h
  have hclean := (marksFailed_rejectIf h).2.2
  unfold CValidationState.doS at hclean
  dsimp only at hclean
  split at hclean <;> cases hclean

end

/-! ## Processing a block -/

/-- The height of the next block. -/
def nextHeight (pprev : PrevChain) : Nat :=
  match pprev with
  | [] => 0
  | pindexPrev :: _ => pindexPrev.nHeight + 1

/-- The state of a node at the three moments of a block: when its header is looked at, when its data
are, and when it becomes the tip. `fChecked` says whether the block is handed on as it was checked or
read from disk again. -/
structure Node where
  headerEnv : Env
  ctx : HeaderContext
  blockEnv : Env
  tipEnv : Env
  nScriptCheckThreads : Nat
  fChecked : Bool
  view : CCoinsView

namespace Node

/-- `AcceptBlock` behind `AcceptBlockHeader`, and `ConnectBlock`, each with a fresh state. -/
def checkData (node : Node) (pprev : PrevChain) (block : CBlock) : Verdict Connected := do
  checkBlock node.blockEnv block {} true true
  contextualCheckBlock node.blockEnv block {} pprev
  connectBlock node.tipEnv node.nScriptCheckThreads { block with fChecked := node.fChecked } {}
    ⟨nextHeight pprev, some (node.blockEnv.blockHash block), pprev⟩ node.view false

section

variable (node : Node) (block : CBlock)

def acceptHeader : Verdict PrevChain :=
  acceptBlockHeader node.headerEnv node.ctx block.toCBlockHeader {}

/-- Processing the block marks its header's entry. A header that is refused has no entry, or has
been marked before. -/
def marks : Bool :=
  match node.acceptHeader block with
  | .ok pprev => marksFailed (node.checkData pprev block)
  | .error _ => false

/-- The block becomes the tip. -/
def takes : Bool :=
  match node.acceptHeader block with
  | .ok pprev => accepts (node.checkData pprev block)
  | .error _ => false

/-- What holds of every node: hash function and rules stay the same, the entry of an accepted header
is in the index with all entries below it, proof of stake does not start before proof of work ends,
and the script interpreter sees one witness. -/
structure Fits : Prop where
  hash256_eq : node.tipEnv.hash256 = node.blockEnv.hash256
  consensus_eq : node.tipEnv.consensus = node.blockEnv.consensus
  indexed : ∀ pprev, node.acceptHeader block = .ok pprev →
    nextHeight pprev < node.blockEnv.mapBlockIndexSize ∧
      nextHeight pprev < node.tipEnv.mapBlockIndexSize
  epochs : node.blockEnv.consensus.nLastPOWBlock ≤ node.blockEnv.consensus.nFirstPOSBlock
  blind : WitnessBlind node.tipEnv

end

end Node

/-! ## Siblings -/

/-- Two blocks of one header hash, both fresh from the wire; nothing that is hashed for them collides.
-/
structure Siblings (env : Env) (a b : CBlock) : Prop where
  fresh : a.fChecked = false ∧ b.fChecked = false
  onWire : (∀ tx ∈ a.vtx, tx.OnWire) ∧ ∀ tx ∈ b.vtx, tx.OnWire
  nVersion_int : IsInt32 a.nVersion ∧ IsInt32 b.nVersion
  hash : env.blockHash a = env.blockHash b
  headers : env.blockHash a = env.blockHash b →
    a.toCBlockHeader.serialize = b.toCBlockHeader.serialize
  injOn : Set.InjOn env.hash256
    {s | s ∈ a.hashedStrings env.hash256 ∨ s ∈ b.hashedStrings env.hash256}

/-- What the header does not stand for, but the marks depend on: `a` is within the limits of
`CheckBlock` and `ContextualCheckBlock`, its signature included, has a first transaction that is no
node of the tree, and the second witness of `b` if that commits to witnesses. -/
structure KeepsUncommitted (a b : CBlock) : Prop where
  size : (a.serialize false).length ≤ MAX_BLOCK_BASE_SIZE
  weight : a.getBlockWeight ≤ MAX_BLOCK_WEIGHT
  first : ∃ tx, a.vtx.head? = some tx ∧ (tx.serialize false).length ≠ 64
  second : b.hasCommitment = true → a.vtx[1]?.map witnessStacks = b.vtx[1]?.map witnessStacks

variable {env : Env} {a b block : CBlock} {sig : List UInt8}

theorem Siblings.header_eq (h : Siblings env a b) : a.toCBlockHeader = b.toCBlockHeader :=
  CBlockHeader.serialize_inj h.nVersion_int.1 h.nVersion_int.2 (h.headers h.hash)

section

variable {env : Env} {a b : CBlock} {pprev : PrevChain}

/-! ## `CheckBlock` -/

/-- Two blocks of one header that pass the merkle check have the same transactions. -/
theorem Siblings.stripped_eq (h : Siblings env a b) (hkeeps : KeepsUncommitted a b)
    (ha : checkMerkleRoot env a {} = .ok ()) (hb : checkBlock env b {} true true = .ok ()) :
    a.vtx.map stripped = b.vtx.map stripped := by
  obtain ⟨coinbase, hhead, hsize⟩ := exists_long_coinbase h.fresh.2 hb
  have hmerkle := ((checkBlock_eq_ok h.fresh.2).mp hb).2.1
  rw [checkMerkleRoot_eq_ok] at ha hmerkle
  have hroot : a.hashMerkleRoot = b.hashMerkleRoot :=
    congrArg CBlockHeader.hashMerkleRoot h.header_eq
  refine stripped_eq_of_merkleRoot h.injOn (fun s hs => .inl (CBlock.txStrings_subset hs))
    (fun s hs => .inr (CBlock.txStrings_subset hs)) h.onWire.1 h.onWire.2 hkeeps.first
    ⟨coinbase, hhead, hsize.ne'⟩ ha.2 hmerkle.2 ?_
  rw [← ha.1, ← hmerkle.1, hroot]

/-- All that `checkShape` asks of a block besides its size is the same for siblings. -/
theorem checkShape_sibling (hstripped : a.vtx.map stripped = b.vtx.map stripped)
    (hsize : (a.serialize false).length ≤ MAX_BLOCK_BASE_SIZE) (hb : checkShape b {} = .ok ()) :
    checkShape a {} = .ok () := by
  rw [← checkShape_stripped] at hb ⊢
  have hvtx : a.stripped.vtx = b.stripped.vtx := hstripped
  have hstake : a.stripped.isProofOfStake = b.stripped.isProofOfStake := by
    rw [CBlock.isProofOfStake, CBlock.isProofOfStake, hvtx]
  simp only [checkShape, bind_ok_iff, rejectIf_eq_ok, Bool.or_eq_false_iff,
    decide_eq_false_iff_not, not_lt, hvtx, hstake, CBlock.stripped_serialize] at hb ⊢
  obtain ⟨hsecond, hothers, ⟨hcount, -⟩, hcoinbase⟩ := hb
  exact ⟨hsecond, hothers, ⟨hcount, hsize⟩, hcoinbase⟩

/-- **`CheckBlock` leaves no mark** on the header of a block that passes it. -/
theorem checkBlock_sibling (h : Siblings env a b) (hkeeps : KeepsUncommitted a b)
    (hwork : checkBlockHeader env a {} = .ok ()) (hb : checkBlock env b {} true true = .ok ()) :
    ¬marksFailed (checkBlock env a {} true true) = true ∧ (checkBlock env a {} true true = .ok () →
        a.vtx.map stripped = b.vtx.map stripped) := by
  have hparts := (checkBlock_eq_ok h.fresh.2).mp hb
  obtain ⟨-, -, hshape, -, htxs, hsigops⟩ := hparts
  refine ⟨?_, fun ha => h.stripped_eq hkeeps ((checkBlock_eq_ok h.fresh.1).mp ha).2.1 hb⟩
  rw [checkBlock, if_neg (by simp [h.fresh.1]), checkBlockBody]
  refine not_marksFailed_bind (marksFailed_ok (onlyIf_eq_ok.mpr fun _ => hwork)) fun _ _ => ?_
  -- A wrong root and a repetition both count as possible corruption.
  refine not_marksFailed_bind (not_marksFailed_bind (not_marksFailed_corrupt _ _ _ _)
    fun _ _ => not_marksFailed_corrupt _ _ _ _) fun _ hmerkle => ?_
  have hstripped := h.stripped_eq hkeeps hmerkle hb
  refine not_marksFailed_bind (marksFailed_ok
    (checkShape_sibling hstripped hkeeps.size hshape)) fun _ _ => ?_
  refine not_marksFailed_bind (fun hmark => ?_) fun _ _ => ?_
  · -- A bad signature leaves the state as it was, and that was not invalid.
    cases (marksFailed_rejectIf hmark).2.1
  have hsame : a.stripped.vtx = b.stripped.vtx := hstripped
  refine not_marksFailed_bind (marksFailed_ok (a := ()) ?_) fun _ _ hmarks => ?_
  · rw [← checkTransactions_stripped, checkTransactions, hsame, ← checkTransactions,
      checkTransactions_stripped]
    exact htxs
  · have hcost : (a.vtx.map getLegacySigOpCount).sum = (b.vtx.map getLegacySigOpCount).sum := by
      have hcount : ∀ vtx : List CTransaction, vtx.map getLegacySigOpCount =
          (vtx.map stripped).map getLegacySigOpCount := fun vtx => by
        rw [List.map_map]
        rfl
      rw [hcount, hstripped, ← hcount]
    have hover := (marksFailed_rejectIf hmarks).1
    rw [decide_eq_true_eq, hcost] at hover
    omega

/-! ## `ContextualCheckBlock` -/

/-- Every complaint about witnesses counts as possible corruption. -/
theorem not_marksFailed_checkWitness {coinbase : CTransaction} :
    ¬marksFailed (checkWitness env a coinbase pprev {}) = true := by
  unfold checkWitness
  split
  · unfold checkWitnessCommitment
    split
    · exact not_marksFailed_bind (not_marksFailed_corrupt _ _ _ _) fun _ _ =>
        not_marksFailed_corrupt _ _ _ _
    · exact Bool.false_ne_true
  · exact not_marksFailed_corrupt _ _ _ _

theorem forall₂_alike {xs ys : List CTransaction} (hstripped : xs.map stripped = ys.map stripped)
    (hstacks : xs.map witnessStacks = ys.map witnessStacks) :
    List.Forall₂ CTransaction.Alike xs ys :=
  (map_eq_map_iff.mp (map_prodMk_eq hstripped hstacks)).imp fun _ _ h =>
    ⟨congrArg Prod.fst h, congrArg Prod.snd h⟩

/-- The head and the second of a list, and the rest. -/
theorem map_eq_of_parts {α β : Type} {f : α → β} : ∀ {xs ys : List α},
    xs.length = ys.length → xs.head?.map f = ys.head?.map f → xs[1]?.map f = ys[1]?.map f →
    (xs.drop 2).map f = (ys.drop 2).map f → xs.map f = ys.map f
  | [], [], _, _, _, _ => rfl
  | [_], [_], _, hfirst, _, _ => congrArg (fun b => [b]) (some.inj hfirst)
  | _ :: _ :: _, _ :: _ :: _, _, hfirst, hsecond, hrest => by
    rw [map_cons, map_cons, map_cons, map_cons, some.inj hfirst]
    congr 1
    exact congrArg₂ cons (some.inj hsecond) hrest

/-- **The witnesses.** Siblings that pass the check of the witnesses have the same ones. -/
theorem Siblings.witnessStacks_eq (h : Siblings env a b) (hkeeps : KeepsUncommitted a b)
    (hstripped : a.vtx.map stripped = b.vtx.map stripped)
    (hchecka : checkBlock env a {} true true = .ok ())
    (hcheckb : checkBlock env b {} true true = .ok ()) {first first' : CTransaction}
    (hfirst : a.vtx.head? = some first) (hfirst' : b.vtx.head? = some first')
    (ha : checkWitness env a first pprev {} = .ok ())
    (hb : checkWitness env b first' pprev {} = .ok ()) :
    a.vtx.map witnessStacks = b.vtx.map witnessStacks := by
  have hheads := head_stripped_eq hstripped hfirst hfirst'
  have hcommitment := witnessCommitment_eq hheads
  by_cases hforce : env.versionBitsActive .DEPLOYMENT_SEGWIT pprev = true ∧ b.hasCommitment = true
  · obtain ⟨hsegwit, hcommit⟩ := hforce
    have hcommit' : a.hasCommitment = true := by
      rw [← hcommit, CBlock.hasCommitment, CBlock.hasCommitment, hfirst, hfirst', bind_some,
        bind_some, hcommitment]
    obtain ⟨_, hcommitted⟩ := committed_of_checkWitness hsegwit hcommit' h.fresh.1 hchecka hfirst ha
    obtain ⟨_, hcommitted'⟩ :=
      committed_of_checkWitness hsegwit hcommit h.fresh.2 hcheckb hfirst' hb
    obtain ⟨-, hnonce, hdrop⟩ := witness_binding hcommitted hcommitted' h.onWire.1 h.onWire.2
      h.injOn h.header_eq.symm
    refine map_eq_of_parts (by simpa using congrArg length hstripped) ?_ (hkeeps.second hcommit)
      hdrop
    rw [hfirst, hfirst', map_some, map_some, witnessStacks,
      witnessStacks, hcommitted.wit, hcommitted'.wit, hnonce,
      (sameStripped_of_stripped_eq hheads).vin]
  · -- Without a commitment in force there are no witnesses at all.
    have hnone : (if env.versionBitsActive .DEPLOYMENT_SEGWIT pprev then witnessCommitment first'
        else none) = none := by
      by_cases hsegwit : env.versionBitsActive .DEPLOYMENT_SEGWIT pprev = true
      · rw [if_pos hsegwit]
        have hcommit : ¬b.hasCommitment = true := fun hcommit => hforce ⟨hsegwit, hcommit⟩
        rw [CBlock.hasCommitment, hfirst', bind_some, not_isSome_iff_eq_none] at hcommit
        exact hcommit
      · rw [if_neg hsegwit]
    rw [checkWitness, hcommitment, hnone] at ha
    rw [checkWitness, hnone] at hb
    simp only [rejectIf_eq_ok, List.any_eq_false, Bool.not_eq_true] at ha hb
    refine map_eq_of_map_eq (fun x hx y hy heq => ?_) hstripped
    rw [witnessStacks_eq_replicate (ha x hx),
      witnessStacks_eq_replicate (hb y hy), (sameStripped_of_stripped_eq heq).vin]

/-- **`ContextualCheckBlock` leaves no mark** either, and if it passes, the blocks are alike. -/
theorem contextualCheckBlock_sibling (h : Siblings env a b) (hkeeps : KeepsUncommitted a b)
    (hchecka : checkBlock env a {} true true = .ok ())
    (hcheckb : checkBlock env b {} true true = .ok ())
    (hb : contextualCheckBlock env b {} pprev = .ok ()) :
    ¬marksFailed (contextualCheckBlock env a {} pprev) = true ∧
      (contextualCheckBlock env a {} pprev = .ok () → a.Alike b) := by
  have hstripped := h.stripped_eq hkeeps ((checkBlock_eq_ok h.fresh.1).mp hchecka).2.1 hcheckb
  obtain ⟨first', hfirst', hplace, hheight, hwitness, -, hpays⟩ :=
    contextualCheckBlock_eq_ok.mp hb
  obtain ⟨first, hfirst, -⟩ := hkeeps.first
  have hheads := head_stripped_eq hstripped hfirst hfirst'
  have hsame := sameStripped_of_stripped_eq hheads
  have halike : checkWitness env a first pprev {} = .ok () → a.Alike b := fun ha =>
    ⟨h.header_eq, forall₂_alike hstripped
      (h.witnessStacks_eq hkeeps hstripped hchecka hcheckb hfirst hfirst' ha hwitness)⟩
  refine ⟨?_, fun ha => ?_⟩
  · have hplaces : ∀ nHeight, checkPlacement env a {} pprev nHeight =
        checkPlacement env b {} pprev nHeight := by
      intro nHeight
      have hvtx : a.stripped.vtx = b.stripped.vtx := hstripped
      have hheader : a.stripped.toCBlockHeader = b.stripped.toCBlockHeader := h.header_eq
      rw [← checkPlacement_stripped, ← checkPlacement_stripped env b]
      simp only [checkPlacement, CBlock.isProofOfWork, CBlock.isProofOfStake, hvtx, hheader]
    refine not_marksFailed_bind (marksFailed_ok ((hplaces _).trans hplace)) fun _ _ => ?_
    refine not_marksFailed_bind marksFailed_orAssert fun coinbase hcoinbase => ?_
    rw [orAssert_eq_ok, hfirst, some.injEq] at hcoinbase
    subst hcoinbase
    have hversion : a.nVersion = b.nVersion := congrArg CBlockHeader.nVersion h.header_eq
    refine not_marksFailed_bind (fun hmark => ?_) fun _ _ => ?_
    · have hbad := (marksFailed_rejectIf hmark).1
      rw [hsame.vin, hversion] at hbad
      exact Bool.false_ne_true (hheight.symm.trans hbad)
    refine not_marksFailed_bind not_marksFailed_checkWitness fun _ hpass => ?_
    refine not_marksFailed_bind (fun hmark => ?_) fun _ _ hmarks => ?_
    · have hover := (marksFailed_rejectIf hmark).1
      rw [decide_eq_true_eq] at hover
      exact hover.not_ge hkeeps.weight
    · have hbad := (marksFailed_rejectIf hmarks).1
      have hstake : a.isProofOfStake = b.isProofOfStake := by
        rw [← bare_isProofOfStake, (halike hpass).bare, bare_isProofOfStake]
      have hpaying : paysWithoutArray first = paysWithoutArray first' := by
        have htext : first.strDZeel = first'.strDZeel := by
          rw [show first.strDZeel = first.stripped.strDZeel from rfl, hheads]
          rfl
        funext o
        rw [paysWithoutArray, paysWithoutArray, htext]
      rw [hstake, hpaying, hsame.vout, hpays] at hbad
      cases hbad
  · obtain ⟨coinbase, hcoinbase, -, -, hpass, -⟩ := contextualCheckBlock_eq_ok.mp ha
    rw [hfirst, some.injEq] at hcoinbase
    subst hcoinbase
    exact halike hpass

/-! ## The law -/

/-- The work of a header is not asked for where its block is one of proof of stake. -/
theorem checkBlockHeader_sibling (hheader : a.toCBlockHeader = b.toCBlockHeader)
    (hindexed : nextHeight pprev < env.mapBlockIndexSize)
    (hepochs : env.consensus.nLastPOWBlock ≤ env.consensus.nFirstPOSBlock)
    (hcheck : b.isProofOfWork = true → checkBlockHeader env b {} = .ok ())
    (hheight : b.isProofOfStake = true → env.consensus.nFirstPOSBlock ≤ nextHeight pprev) :
    checkBlockHeader env a {} = .ok () := by
  cases hwork : b.isProofOfWork with
  | true =>
    have hsame : checkBlockHeader env a {} = checkBlockHeader env b {} := by
      rw [checkBlockHeader, checkBlockHeader, Env.blockHash, Env.blockHash, hheader]
    rw [hsame]
    exact hcheck hwork
  | false =>
    have hstake : b.isProofOfStake = true := by simpa [CBlock.isProofOfWork] using hwork
    have hfirst := hheight hstake
    have hlate : ¬env.mapBlockIndexSize ≤ env.consensus.nLastPOWBlock := by omega
    rw [checkBlockHeader, rejectIf_eq_ok, decide_eq_false hlate, Bool.false_and]

/-- A proof-of-stake block is accepted at a height of its epoch. -/
theorem contextualCheckBlock_stakeHeight (h : contextualCheckBlock env b {} pprev = .ok ())
    (hstake : b.isProofOfStake = true) : env.consensus.nFirstPOSBlock ≤ nextHeight pprev := by
  obtain ⟨_, -, hplace, -⟩ := contextualCheckBlock_eq_ok.mp h
  simp only [checkPlacement, bind_ok_iff, rejectIf_eq_ok, hstake, Bool.true_and,
    decide_eq_false_iff_not, not_lt] at hplace
  exact hplace.2.1

end

/-- Siblings for one hash function are siblings for every environment with it. -/
theorem Siblings.of_hash256 {env' : Env} (h : Siblings env a b) (heq : env'.hash256 = env.hash256) :
    Siblings env' a b where
  fresh := h.fresh
  onWire := h.onWire
  nVersion_int := h.nVersion_int
  hash := by rw [Env.blockHash, Env.blockHash, h.header_eq]
  headers := fun _ => by rw [h.header_eq]
  injOn := by
    rw [heq]
    exact h.injOn

/-- **`ConnectBlock` leaves no mark** on the header of a block it accepts. -/
theorem connectBlock_sibling (h : Siblings env a b) (hkeeps : KeepsUncommitted a b)
    (halike : a.Alike b) (hblind : WitnessBlind env)
    (hwork : b.isProofOfWork = true → checkBlockHeader env b {} = .ok () →
      checkBlockHeader env a {} = .ok ())
    (hstake : b.isProofOfStake = true → checkBlockHeader env a {} = .ok ()) {n : Nat}
    {fChecked : Bool} {pindex : BlockPlace} {view : CCoinsView} {r' : Connected}
    (hb : connectBlock env n { b with fChecked := fChecked } {} pindex view false = .ok r') :
    ¬marksFailed (connectBlock env n { a with fChecked := fChecked } {} pindex view false) = true := by
  have halike' : CBlock.Alike { a with fChecked := fChecked } { b with fChecked := fChecked } :=
    ⟨halike.header, halike.vtx⟩
  by_cases hcheck : checkBlock env { a with fChecked := fChecked } {} true true = .ok ()
  · obtain ⟨r, hr⟩ := connectBlock_alike hblind halike' hcheck hb
    exact marksFailed_ok hr
  · unfold connectBlock at hb ⊢
    rw [bind_ok_iff] at hb
    refine not_marksFailed_bind ?_ fun _ hok => absurd hok hcheck
    cases fChecked with
    | true => exact Bool.false_ne_true
    | false =>
      -- The block was read from disk: it is checked as it was the first time.
      have ha : { a with fChecked := false } = a := by rw [← h.fresh.1]
      have hbEq : { b with fChecked := false } = b := by rw [← h.fresh.2]
      have hcheckb : checkBlock env b {} true true = .ok () := by
        rw [← hbEq]
        exact hb.1
      have hheader : checkBlockHeader env a {} = .ok () := by
        cases hpow : b.isProofOfWork with
        | true => exact hwork hpow (((checkBlock_eq_ok h.fresh.2).mp hcheckb).1 hpow)
        | false => exact hstake (by simpa [CBlock.isProofOfWork] using hpow)
      rw [ha]
      exact (checkBlock_sibling h hkeeps hheader hcheckb).1

/-- A sibling with a signature of two megabytes is too long, and nothing says so before. -/
theorem checkBlock_oversized (hfresh : block.fChecked = false)
    (hcheck : checkBlock env block {} true true = .ok ())
    (hlong : MAX_BLOCK_BASE_SIZE < sig.length) :
    checkBlock env { block with vchBlockSig := sig } {} true true =
      .error (.rejected (({} : CValidationState).doS 100 REJECT_INVALID "bad-blk-length")) := by
  obtain ⟨hwork, hmerkle, hshape, -⟩ := (checkBlock_eq_ok hfresh).mp hcheck
  have hsize : MAX_BLOCK_BASE_SIZE < ({ block with vchBlockSig := sig }.serialize false).length := by
    simp only [CBlock.serialize, serBytes, length_append]
    omega
  simp only [checkShape, bind_ok_iff, rejectIf_eq_ok] at hshape
  obtain ⟨hsecond, hothers, -⟩ := hshape
  have hworks : onlyIf { block with vchBlockSig := sig }.isProofOfWork
      (checkBlockHeader env { block with vchBlockSig := sig } {}) = .ok () :=
    onlyIf_eq_ok.mpr hwork
  have hmerkles : checkMerkleRoot env { block with vchBlockSig := sig } {} = .ok () := hmerkle
  have hshapes : checkShape { block with vchBlockSig := sig } {} =
      .error (.rejected (({} : CValidationState).doS 100 REJECT_INVALID "bad-blk-length")) := by
    have hfirst : ({ block with vchBlockSig := sig }.isProofOfStake &&
        !({ block with vchBlockSig := sig }.vtx.drop 1).head?.any isCoinStake) = false :=
      hsecond
    have hrest : ({ block with vchBlockSig := sig }.isProofOfStake &&
        ({ block with vchBlockSig := sig }.vtx.drop 2).any isCoinStake) = false := hothers
    rw [checkShape, hfirst, hrest, decide_eq_true hsize, Bool.or_true]
    rfl
  rw [checkBlock, if_neg (by simp [hfresh]), checkBlockBody, hworks, onlyIf, if_pos rfl, hmerkles,
    hshapes]
  rfl

/-- **Every block that is taken has a sibling that marks its header.** -/
theorem oversized_signature_marks {node : Node} (hfresh : block.fChecked = false)
    (htakes : node.takes block = true) {sig : List UInt8}
    (hlong : MAX_BLOCK_BASE_SIZE < sig.length) :
    node.marks { block with vchBlockSig := sig } = true := by
  have haccept : node.acceptHeader { block with vchBlockSig := sig } = node.acceptHeader block := rfl
  rw [Node.takes] at htakes
  rw [Node.marks, haccept]
  cases hpprev : node.acceptHeader block with
  | error failure =>
    rw [hpprev] at htakes
    cases htakes
  | ok pprev =>
    rw [hpprev] at htakes
    obtain ⟨_, hdata⟩ := accepts_iff.mp htakes
    rw [Node.checkData, bind_ok_iff] at hdata
    show marksFailed (node.checkData pprev { block with vchBlockSig := sig }) = true
    rw [Node.checkData, checkBlock_oversized hfresh hdata.1 hlong]
    rfl

/-! ## A node -/

/-- A node that knows the headers of the sample chain, up to height 100. -/
def sampleNode : Node where
  headerEnv := sampleEnv 101
  ctx := {
    find := fun hash => if hash = (sampleIndex 100).hash then some ⟨sampleChain 101, false⟩ else none
    nAdjustedTime := 1532376016
    nMajorityRejectBlockOutdated := 950
    lastCheckpoint := none }
  blockEnv := { sampleEnv 101 with mapBlockIndexSize := 102 }
  tipEnv := { sampleEnv 101 with mapBlockIndexSize := 102 }
  nScriptCheckThreads := 0
  fChecked := true
  view := sampleView 101

/-- A proof-of-stake block for it, with what its coinbase pays and a signature. -/
def stakedBlock (coinbasePays : Int) (vchBlockSig : List UInt8) : CBlock :=
  { stakeBlock [0x51] coinbasePays [] with nVersion := 0x71000000, vchBlockSig := vchBlockSig }

theorem stakedBlock_taken : sampleNode.takes (stakedBlock 0 [1]) = true := by
  decide +kernel

end Chratos
