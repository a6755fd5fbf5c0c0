import Chratos.Chain.Work
import Chratos.Consensus.AcceptBlockHeader
import Chratos.Properties.Conservation

/-!
# Chratos — when proof of work is verified

The hash of a proof-of-work block is compared with its target in `CheckBlockHeader` alone, which runs
when the header arrives, when the block arrives, and when the block is connected. Each time the
comparison is skipped if the node knows more headers than there may be proof-of-work blocks, or if its
tip is past them: neither says anything about the height of the block at hand.
-/

namespace Chratos

open Outcome

/-! ## Work -/

/-- The hash is at most the target, and the target positive, not overflowing and within the limit. -/
structure HasWork (params : Consensus.Params) (hash : Uint256) (nBits : UInt32) : Prop where
  not_negative : (arithSetCompact nBits).2.1 = false
  ne_zero : (arithSetCompact nBits).1 ≠ 0
  not_overflow : (arithSetCompact nBits).2.2 = false
  le_limit : (arithSetCompact nBits).1 ≤ params.powLimit
  hash_le : hash.toNat ≤ (arithSetCompact nBits).1

/-- The node when it knows `size` headers and has its tip at `height`. -/
def Env.seen (env : Env) (size : Nat) (height : Int) : Env :=
  { env with mapBlockIndexSize := size, activeHeight := height }

section

variable {env : Env} {size : Nat} {height : Int} {block : CBlock} {state : CValidationState}

theorem checkProofOfWork_iff {hash : Uint256} {nBits : UInt32} :
    checkProofOfWork env hash nBits = true ↔
      (env.activeHeight < env.consensus.nLastPOWBlock → HasWork env.consensus hash nBits) := by
  unfold checkProofOfWork
  split
  · rename_i hpast
    exact ⟨fun _ hlt => absurd hlt (not_lt.mpr hpast), fun _ => rfl⟩
  · rename_i hpast
    simp only [Bool.not_eq_true', decide_eq_false_iff_not, not_or, not_lt]
    constructor
    · rintro ⟨hneg, hzero, hover, hlimit, hhash⟩ _
      exact ⟨decide_eq_false hneg, hzero, decide_eq_false hover, hlimit, hhash⟩
    · intro h
      obtain ⟨hneg, hzero, hover, hlimit, hhash⟩ := h (not_le.mp hpast)
      exact ⟨of_decide_eq_false hneg, hzero, of_decide_eq_false hover, hlimit, hhash⟩

/-- The check passes if the node is past proof of work, by either measure, or the work is there. -/
theorem checkBlockHeader_seen : checkBlockHeader (env.seen size height) block state = .ok () ↔
      (size ≤ env.consensus.nLastPOWBlock → height < env.consensus.nLastPOWBlock →
        HasWork env.consensus (env.blockHash block) block.nBits) := by
  rw [checkBlockHeader, rejectIf_eq_ok, Bool.and_eq_false_imp, decide_eq_true_iff,
    Bool.not_eq_false', checkProofOfWork_iff]
  rfl

/-! ## The three moments -/

/-- What the node is like when the header arrives, when the block arrives and when it is connected.
At the last moment the tip is the block's parent; `fChecked` tells whether the block still carries the
mark of the second. -/
structure Moments where
  headerSize : Nat
  headerHeight : Int
  blockSize : Nat
  blockHeight : Int
  connectSize : Nat
  fChecked : Bool

/-- One of the comparisons is made, for the last proof-of-work height `nLastPOWBlock`. -/
def Moments.Verifies (m : Moments) (nLastPOWBlock : Nat) : Prop :=
  (m.headerSize ≤ nLastPOWBlock ∧ m.headerHeight < nLastPOWBlock) ∨
  (m.blockSize ≤ nLastPOWBlock ∧ m.blockHeight < nLastPOWBlock) ∨
  (m.fChecked = false ∧ m.connectSize ≤ nLastPOWBlock)

/-- A new header whose block is then accepted and connected at `pindex`. -/
structure AcceptedAt (m : Moments) (env : Env) (ctx : HeaderContext) (nScriptCheckThreads : Nat)
    (pindex : BlockPlace) (view : CCoinsView) (block : CBlock) : Prop where
  not_genesis : env.blockHash block ≠ env.consensus.hashGenesisBlock
  new : ctx.find (env.blockHash block) = none
  header : acceptBlockHeader (env.seen m.headerSize m.headerHeight) ctx block.toCBlockHeader {} =
    .ok pindex.pprev
  fresh : block.fChecked = false
  check : checkBlock (env.seen m.blockSize m.blockHeight) block {} true true = .ok ()
  contextual : contextualCheckBlock (env.seen m.blockSize m.blockHeight) block {} pindex.pprev =
    .ok ()
  height : pindex.pprev.head?.map (·.nHeight + 1) = some pindex.nHeight
  connect : ∃ r, connectBlock (env.seen m.connectSize (pindex.nHeight - 1)) nScriptCheckThreads
    { block with fChecked := m.fChecked } {} pindex view false = .ok r

/-- `CheckBlock` looks at the work of a proof-of-work block that is not marked. -/
theorem checkBlockHeader_of_checkBlock {fCheckMerkleRoot fCheckSig : Bool}
    (hfresh : block.fChecked = false) (hpow : block.isProofOfWork = true)
    (h : checkBlock env block state fCheckMerkleRoot fCheckSig = .ok ()) :
    checkBlockHeader env block state = .ok () := by
  rw [checkBlock, if_neg (by simp [hfresh]), checkBlockBody] at h
  exact onlyIf_eq_ok.mp (bind_ok_iff.mp h).1 hpow

variable {ctx : HeaderContext} {chain : PrevChain}

/-- A new header has passed the check. -/
theorem checkBlockHeader_of_acceptBlockHeader
    (hgenesis : env.blockHash block ≠ env.consensus.hashGenesisBlock)
    (hnew : ctx.find (env.blockHash block) = none)
    (h : acceptBlockHeader env ctx block.toCBlockHeader state = .ok chain) :
    checkBlockHeader env block state = .ok () := by
  have hhash : env.blockHash block.toCBlockHeader.toBlock = env.blockHash block := rfl
  rw [acceptBlockHeader, hhash] at h
  simp only [if_neg hgenesis, hnew, checkNewHeader] at h
  exact (bind_ok_iff.mp h).1

/-- No proof-of-work block is accepted past the last height for them. -/
theorem height_le_of_contextual {nHeight : Nat} (hpow : block.isProofOfWork = true)
    (hheight : chain.head?.map (·.nHeight + 1) = some nHeight)
    (h : contextualCheckBlock env block state chain = .ok ()) :
    nHeight ≤ env.consensus.nLastPOWBlock := by
  cases chain with
  | nil => cases hheight
  | cons pindexPrev chain =>
    have hplace := (bind_ok_iff.mp h).1
    have hpast := rejectIf_eq_ok.mp (bind_ok_iff.mp hplace).1
    rw [hpow, Bool.true_and, decide_eq_false_iff_not, not_lt] at hpast
    rw [List.head?_cons, Option.map_some, Option.some.injEq] at hheight
    rw [← hheight]
    exact hpast

theorem AcceptedAt.hasWork {m : Moments} {nScriptCheckThreads : Nat} {pindex : BlockPlace}
    {view : CCoinsView} (h : AcceptedAt m env ctx nScriptCheckThreads pindex view block)
    (hpow : block.isProofOfWork = true) (hverifies : m.Verifies env.consensus.nLastPOWBlock) :
    HasWork env.consensus (env.blockHash block) block.nBits := by
  rcases hverifies with ⟨hsize, hheight⟩ | ⟨hsize, hheight⟩ | ⟨hmark, hsize⟩
  · have hheader : checkBlockHeader (env.seen m.headerSize m.headerHeight) block {} = .ok () :=
      checkBlockHeader_of_acceptBlockHeader h.not_genesis h.new h.header
    exact checkBlockHeader_seen.mp hheader hsize hheight
  · exact checkBlockHeader_seen.mp (checkBlockHeader_of_checkBlock h.fresh hpow h.check) hsize hheight
  · obtain ⟨r, hconnect⟩ := h.connect
    have hcheck := (bind_ok_iff.mp hconnect).1
    -- The tip is the parent, and the parent of a proof-of-work block is early enough.
    have hle : pindex.nHeight ≤ env.consensus.nLastPOWBlock :=
      height_le_of_contextual hpow h.height h.contextual
    have hheader : checkBlockHeader (env.seen m.connectSize (pindex.nHeight - 1))
        { block with fChecked := m.fChecked } {} = .ok () :=
      checkBlockHeader_of_checkBlock hmark hpow hcheck
    refine checkBlockHeader_seen.mp hheader hsize ?_
    omega

end

/-! ## What else does not read the three numbers -/

/-- The network on which proof of work ends at `nLastPOWBlock`. -/
def Env.endingAt (env : Env) (nLastPOWBlock : Nat) : Env :=
  { env with consensus := { env.consensus with nLastPOWBlock := nLastPOWBlock } }

section

variable (env : Env) (last size : Nat) (height : Int) (block : CBlock) (state : CValidationState)

theorem selectBlockLoop_seen (selected : List Uint256) (stop : Int) (modifierPrev : UInt64) :
    ∀ (items : List (Nat × Uint256)) (best : Option (Uint256 × CBlockIndex)),
      selectBlockLoop ((env.endingAt last).seen size height) selected stop modifierPrev items best =
        selectBlockLoop env selected stop modifierPrev items best
  | [], _ => rfl
  | item :: items, best => by
    have ih := selectBlockLoop_seen selected stop modifierPrev items
    simp only [selectBlockLoop, ih]
    rfl

theorem modifierRounds_seen (candidates : List (Nat × Uint256)) (modifierPrev : UInt64) :
    ∀ (rounds nRound : Nat) (stop : Int) (selected : List Uint256) (bits : UInt64),
      modifierRounds ((env.endingAt last).seen size height) candidates modifierPrev rounds nRound stop
          selected bits =
        modifierRounds env candidates modifierPrev rounds nRound stop selected bits
  | 0, _, _, _, _ => rfl
  | rounds + 1, nRound, stop, selected, bits => by
    have ih := modifierRounds_seen candidates modifierPrev rounds (nRound + 1)
    simp only [modifierRounds, ih, selectBlockLoop_seen]
    rfl

theorem checkStake_seen (pprev : PrevChain) :
    checkStake ((env.endingAt last).seen size height) block state pprev =
      checkStake env block state pprev := by
  have hmodifier : computeNextStakeModifier ((env.endingAt last).seen size height) pprev =
      computeNextStakeModifier env pprev := by
    simp only [computeNextStakeModifier, modifierRounds_seen]
    rfl
  simp only [checkStake, hmodifier]
  rfl

/-- `CheckBlock`, where neither node compares hash and target. -/
theorem checkBlock_seen (fCheckMerkleRoot fCheckSig : Bool)
    (h : checkBlockHeader env block state = .ok ())
    (h' : checkBlockHeader ((env.endingAt last).seen size height) block state = .ok ()) :
    checkBlock ((env.endingAt last).seen size height) block state fCheckMerkleRoot fCheckSig =
      checkBlock env block state fCheckMerkleRoot fCheckSig := by
  simp only [checkBlock, checkBlockBody, h, h']
  rfl

theorem connectBlock_seen (nScriptCheckThreads : Nat) (pindex : BlockPlace) (view : CCoinsView)
    (fJustCheck : Bool)
    (h : checkBlock ((env.endingAt last).seen size height) block state (!fJustCheck) (!fJustCheck) =
      checkBlock env block state (!fJustCheck) (!fJustCheck)) :
    connectBlock ((env.endingAt last).seen size height) nScriptCheckThreads block state pindex view
        fJustCheck = connectBlock env nScriptCheckThreads block state pindex view fJustCheck := by
  simp only [connectBlock, h, checkStake_seen]
  rfl

/-- `ContextualCheckBlock`, at a height both networks allow for proof of work. -/
theorem contextualCheckBlock_seen {pindexPrev : CBlockIndex} (chain : PrevChain)
    (h : pindexPrev.nHeight + 1 ≤ env.consensus.nLastPOWBlock) (h' : pindexPrev.nHeight + 1 ≤ last) :
    contextualCheckBlock ((env.endingAt last).seen size height) block state (pindexPrev :: chain) =
      contextualCheckBlock env block state (pindexPrev :: chain) := by
  have hplace : checkPlacement ((env.endingAt last).seen size height) block state
      (pindexPrev :: chain) (pindexPrev.nHeight + 1) =
      checkPlacement env block state (pindexPrev :: chain) (pindexPrev.nHeight + 1) := by
    have hlast : ((env.endingAt last).seen size height).consensus.nLastPOWBlock = last := rfl
    simp only [checkPlacement, hlast, decide_eq_false (not_lt.mpr h), decide_eq_false (not_lt.mpr h')]
    rfl
  simp only [contextualCheckBlock, hplace]
  rfl

theorem acceptBlockHeader_seen (ctx : HeaderContext) (h : checkBlockHeader env block state = .ok ())
    (h' : checkBlockHeader ((env.endingAt last).seen size height) block state = .ok ()) :
    acceptBlockHeader ((env.endingAt last).seen size height) ctx block.toCBlockHeader state =
      acceptBlockHeader env ctx block.toCBlockHeader state := by
  have hheader : checkBlockHeader ((env.endingAt last).seen size height)
      block.toCBlockHeader.toBlock state = checkBlockHeader env block.toCBlockHeader.toBlock state :=
    h'.trans h.symm
  simp only [acceptBlockHeader, checkNewHeader, hheader]
  rfl

end

/-! ## A block without work -/

/-- Headers hash above every target. -/
def worklessHash (bytes : List UInt8) : Uint256 :=
  if bytes.length = 80 then BitVec.ofNat 256 (2 ^ 255) else sampleHash bytes

/-- A node that is past proof of work and can still fork off at genesis. -/
def worklessEnv : Env :=
  { sampleEnv 1 with
    consensus := { Consensus.Params.main with hashGenesisBlock := 1000 }
    hash256 := worklessHash
    mapBlockIndexSize := 5001
    activeHeight := 5000 }

def worklessContext : HeaderContext where
  find := fun hash => if hash = 1000 then some ⟨sampleChain 1, false⟩ else none
  nAdjustedTime := 1532376000
  nMajorityRejectBlockOutdated := 950
  lastCheckpoint := none

/-- The first block after genesis, with a coinbase only. -/
def worklessBlock (fChecked : Bool) : CBlock :=
  { sampleBlock 1 1532361095 0x1f00ffff [] [sampleCoinbase 1 1532361095 0 []] with
    nVersion := 0x71000000
    fChecked := fChecked }

def worklessPlace : BlockPlace := ⟨1, some (BitVec.ofNat 256 (2 ^ 255)), sampleChain 1⟩

/-- A new header of a proof-of-work block whose hash is above its target, and that is not compared. -/
theorem worklessBlock_header : (worklessBlock false).isProofOfWork = true ∧
      (arithSetCompact (worklessBlock false).nBits).1 <
        (worklessEnv.blockHash (worklessBlock false)).toNat ∧
      checkBlockHeader worklessEnv (worklessBlock false) {} = .ok () ∧
      worklessEnv.blockHash (worklessBlock false) ≠ 1000 ∧
      worklessContext.find (worklessEnv.blockHash (worklessBlock false)) = none := by
  decide +kernel

theorem worklessBlock_not_hasWork (params : Consensus.Params) :
    ¬HasWork params (worklessEnv.blockHash (worklessBlock false)) (worklessBlock false).nBits := by
  intro h
  have hle := h.hash_le
  have hgt := worklessBlock_header.2.1
  omega

/-- It passes everything in this node. -/
theorem worklessBlock_accepted :
    acceptBlockHeader worklessEnv worklessContext (worklessBlock false).toCBlockHeader {} =
        .ok worklessPlace.pprev ∧
      contextualCheckBlock worklessEnv (worklessBlock false) {} worklessPlace.pprev = .ok () ∧
      checkBlock worklessEnv (worklessBlock false) {} true true = .ok () ∧
      ∀ fChecked : Bool, accepts (connectBlock worklessEnv 0 (worklessBlock fChecked) {}
        worklessPlace (sampleView 1) false) = true := by
  decide +kernel

/-- And in every node that is late at all three moments. -/
theorem worklessBlock_acceptedAt {m : Moments} {last : Nat} (hlast : 1 ≤ last)
    (hlate : ¬m.Verifies last) :
    AcceptedAt m (worklessEnv.endingAt last) worklessContext 0 worklessPlace (sampleView 1)
      (worklessBlock false) := by
  rw [Moments.Verifies, not_or, not_or, not_and, not_and, not_and] at hlate
  obtain ⟨hheader, hblock, hconnect⟩ := hlate
  obtain ⟨haccept, hcontext, hcheck, hconnected⟩ := worklessBlock_accepted
  obtain ⟨-, -, hskip, hgenesis, hnew⟩ := worklessBlock_header
  have hlateAt : ∀ {size : Nat} {height : Int}, (size ≤ last → ¬height < last) →
      checkBlockHeader ((worklessEnv.endingAt last).seen size height) (worklessBlock false) {} =
        .ok () := fun hguard =>
    checkBlockHeader_seen.mpr fun hsize hheight => absurd hheight (hguard hsize)
  have hchain : worklessPlace.pprev = sampleIndex 0 :: [] := rfl
  refine ⟨hgenesis, hnew, ?_, rfl, ?_, ?_, by decide, ?_⟩
  · rw [acceptBlockHeader_seen _ _ _ _ _ _ _ hskip (hlateAt hheader)]
    exact haccept
  · rw [checkBlock_seen _ _ _ _ _ _ _ _ hskip (hlateAt hblock)]
    exact hcheck
  · rw [hchain] at hcontext ⊢
    rw [contextualCheckBlock_seen _ _ _ _ _ _ _ (by decide) hlast]
    exact hcontext
  · have hmarked : { worklessBlock false with fChecked := m.fChecked } = worklessBlock m.fChecked :=
      rfl
    rw [hmarked, connectBlock_seen]
    · exact accepts_iff.mp (hconnected m.fChecked)
    · cases hmark : m.fChecked with
      | true =>
        have hchecked : (worklessBlock true).fChecked = true := rfl
        rw [checkBlock, checkBlock, if_pos hchecked, if_pos hchecked]
      | false =>
        refine checkBlock_seen _ _ _ _ _ _ _ _ hskip (hlateAt fun hsize => ?_)
        exact absurd hsize (hconnect hmark)

/-! ## The law -/

/-- **When proof of work is verified.** Every accepted proof-of-work block of every node with these
three moments has its work, exactly if at one of them the node knew few enough headers and had a low
enough tip. -/
theorem pow_verified_iff (m : Moments) {last : Nat} (hlast : 1 ≤ last) :
    (∀ (env : Env) (ctx : HeaderContext) (nScriptCheckThreads : Nat) (pindex : BlockPlace)
        (view : CCoinsView) (block : CBlock), env.consensus.nLastPOWBlock = last →
        AcceptedAt m env ctx nScriptCheckThreads pindex view block → block.isProofOfWork = true →
        HasWork env.consensus (env.blockHash block) block.nBits) ↔ m.Verifies last := by
  constructor
  · intro hall
    by_contra hlate
    refine worklessBlock_not_hasWork _ (hall (worklessEnv.endingAt last) worklessContext 0
      worklessPlace (sampleView 1) (worklessBlock false) rfl (worklessBlock_acceptedAt hlast hlate) ?_)
    exact worklessBlock_header.1
  · intro hverifies env ctx nScriptCheckThreads pindex view block hnet haccepted hpow
    rw [← hnet] at hverifies
    exact haccepted.hasWork hpow hverifies

/-- On the main network, a header that arrives at a node with 50 entries and its tip at height 49: the
work is verified, whatever the node is like later. -/
theorem pow_verified_at_fifty : 1 ≤ Consensus.Params.main.nLastPOWBlock ∧
    ∀ (env : Env) (ctx : HeaderContext) (nScriptCheckThreads : Nat)
      (pindex : BlockPlace) (view : CCoinsView) (block : CBlock),
      env.consensus.nLastPOWBlock = Consensus.Params.main.nLastPOWBlock →
      AcceptedAt ⟨50, 49, 5001, 5000, 5001, true⟩ env ctx nScriptCheckThreads pindex view block →
      block.isProofOfWork = true → HasWork env.consensus (env.blockHash block) block.nBits :=
  ⟨by decide, (pow_verified_iff ⟨50, 49, 5001, 5000, 5001, true⟩ (by decide)).mpr
    (.inl ⟨by decide, by decide⟩)⟩

/-- A block without work, at height 1, in a node of the main network's rules that knows 5001 headers
and has its tip at height 5000: it is accepted as a header and as a block, and connected once the tip
is back at genesis. -/
theorem workless_block_accepted : (worklessBlock false).isProofOfWork = true ∧
    acceptBlockHeader worklessEnv worklessContext (worklessBlock false).toCBlockHeader {} =
      .ok worklessPlace.pprev ∧ checkBlock worklessEnv (worklessBlock false) {} true true = .ok () ∧
    contextualCheckBlock worklessEnv (worklessBlock false) {} worklessPlace.pprev = .ok () ∧
    accepts (connectBlock (worklessEnv.seen 5001 0) 0 (worklessBlock false) {} worklessPlace
      (sampleView 1) false) = true ∧ (arithSetCompact (worklessBlock false).nBits).1 <
      (worklessEnv.blockHash (worklessBlock false)).toNat := by
  obtain ⟨hwork, hgt, -⟩ := worklessBlock_header
  obtain ⟨haccept, hcontext, hcheck, -⟩ := worklessBlock_accepted
  refine ⟨hwork, haccept, hcheck, hcontext, ?_, hgt⟩
  decide +kernel

/-- A node with 50 entries compares the hash. -/
example : accepts (checkBlockHeader (worklessEnv.seen 50 49) (worklessBlock false) {}) = false := by
  decide +kernel

end Chratos
