import Chratos.Properties.WitnessCommitment

/-!
# Chratos — the node's own blocks and its own witness rule

`GenerateCoinbaseCommitment` fills in the commitment of a block template, and for a proof-of-stake
block `SignBlock` then puts the coinstake behind the coinbase. The commitment is over the witness
hashes of the whole template. The check leaves out the second transaction and keeps its place free at
the end: of the template itself it sees one leaf less, of the signed block one zero more.
-/

namespace Chratos

open Outcome Codec MerkleTree List CTransaction

variable {hash256 : List UInt8 → Uint256} {txs : List CTransaction} {leaves : List Uint256}

/-! ## Templates -/

/-- `BlockWitnessMerkleRoot` without `fIgnoreCoinStake`: the leaves. -/
def templateLeaves (hash256 : List UInt8 → Uint256) (block : CBlock) : List Uint256 :=
  0 :: (block.vtx.drop 1).map (getWitnessHash hash256)

/-- The nonce of the node's own blocks. -/
def zeroNonce : List UInt8 := List.replicate 32 0

/-- The output script of a commitment. -/
def commitmentScript (commitment : Uint256) : CScript :=
  [OP_RETURN, 0x24, 0xaa, 0x21, 0xa9, 0xed] ++ serUint256 commitment

def withNonce (coinbase : CTransaction) (hvin : coinbase.vin ≠ []) : CTransaction :=
  { coinbase with wit := [[zeroNonce]], wit_le := coinbase.oneWitness_le hvin }

section

variable (env : Env) (chain : PrevChain) (block : CBlock)

/-- `UpdateUncommittedBlockStructures`: the nonce is put in if there is a commitment and the coinbase
has no witness yet. A coinbase has an input to put it at. -/
def updateUncommittedBlockStructures : CBlock :=
  match block.vtx with
  | [] => block
  | coinbase :: rest =>
    if h : (witnessCommitment coinbase).isSome ∧
        env.versionBitsActive .DEPLOYMENT_SEGWIT chain = true ∧ coinbase.wit = [] ∧
        coinbase.vin ≠ [] then
      { block with vtx := withNonce coinbase h.2.2.2 :: rest }
    else block

/-- The output `GenerateCoinbaseCommitment` appends to the coinbase. -/
def addCommitment : CBlock :=
  match block.vtx with
  | [] => block
  | coinbase :: rest =>
    if rest.any (·.hasWitness) ∧ env.versionBitsActive .DEPLOYMENT_SEGWIT chain = true ∧
        witnessCommitment coinbase = none then
      let witnessroot := (computeMerkleRoot env.hash256 (templateLeaves env.hash256 block)).1
      let out : CTxOut := ⟨0, commitmentScript (env.hash256 (serUint256 witnessroot ++ zeroNonce))⟩
      { block with vtx := { coinbase with vout := coinbase.vout ++ [out] } :: rest }
    else block

def generateCoinbaseCommitment : CBlock :=
  updateUncommittedBlockStructures env chain (addCommitment env chain block)

end

/-- What `SignBlock` makes of a template when the wallet has found a coinstake: the times are set to
the coinstake's, it is put in the second place, and the block is signed. -/
def signBlock (hash256 : List UInt8 → Uint256) (block : CBlock) (txCoinStake : CTransaction)
    (vchBlockSig : List UInt8) : CBlock :=
  match block.vtx with
  | [] => block
  | coinbase :: rest =>
    let vtx := { coinbase with nTime := txCoinStake.nTime } :: txCoinStake :: rest
    { block with
      nTime := txCoinStake.nTime
      vtx := vtx
      hashMerkleRoot := (computeMerkleRoot hash256 (vtx.map (getHash hash256))).1
      vchBlockSig := vchBlockSig }

/-- The witness rules of `ContextualCheckBlock` for a block. -/
def passesWitness (env : Env) (chain : PrevChain) (state : CValidationState) (block : CBlock) : Bool :=
  match block.vtx with
  | [] => false
  | coinbase :: _ => accepts (checkWitness env block coinbase chain state)

/-! ## The trees -/

section

variable {S : Set (List UInt8)}

section

variable {hashes : List Uint256} (hinj : S.InjOn hash256)
  (hleaves : ∀ s ∈ merkleStrings hash256 (0 :: hashes), s ∈ S)
include hinj hleaves

/-- A leaf that is dropped at the second place and made up for by a zero at the end. -/
theorem template_root_ne (hchecked : ∀ s ∈ merkleStrings hash256 (0 :: hashes.tail ++ [0]), s ∈ S)
    (hlast : ∃ h, hashes.getLast? = some h ∧ h ≠ 0) : (computeMerkleRoot hash256 (0 :: hashes)).1 ≠
      (computeMerkleRoot hash256 (0 :: hashes.tail ++ [0])).1 := by
  intro heq
  obtain ⟨h, hget, hne⟩ := hlast
  have hnil : hashes ≠ [] := by
    rintro rfl
    cases hget
  have hlen : (0 :: hashes).length = (0 :: hashes.tail ++ [0]).length := by
    have := length_pos_iff.mpr hnil
    simp only [length_cons, length_append, length_tail, length_nil]
    omega
  have hsame := computeMerkleRoot_inj_of_length hinj hleaves hchecked hlen heq
  have htail : hashes = hashes.tail ++ [0] := (List.cons.inj hsame).2
  rw [htail, getLast?_concat, Option.some.injEq] at hget
  exact hne hget.symm

/-- One zero more at the end: at the same height it would have to repeat the last leaf, and a taller
tree would have a node that hashes to the coinbase's zero. -/
theorem signed_root_ne
    (hsigned : ∀ s ∈ merkleStrings hash256 (0 :: hashes ++ [0]), s ∈ S ∧ hash256 s ≠ 0)
    (hlast : ∃ h, hashes.getLast? = some h ∧ h ≠ 0) : (computeMerkleRoot hash256 (0 :: hashes)).1 ≠
      (computeMerkleRoot hash256 (0 :: hashes ++ [0])).1 := by
  intro heq
  have hapart := apart_of_injOn hinj hleaves fun s hs => (hsigned s hs).1
  have hne : 0 :: hashes ++ [0] ≠ [] := cons_ne_nil _ _
  rw [computeMerkleRoot_eq (cons_ne_nil _ _), computeMerkleRoot_eq hne] at heq
  have hlen : (0 :: hashes ++ [0]).length = (0 :: hashes).length + 1 := by
    rw [length_append]
    rfl
  have hle : Nat.clog 2 (0 :: hashes).length ≤ Nat.clog 2 (0 :: hashes ++ [0]).length :=
    Nat.clog_mono_right 2 (by omega)
  rcases eq_or_lt_of_le hle with hclog | hclog
  · rw [← hclog] at heq hapart
    have hfits : (0 :: hashes).length < 2 ^ Nat.clog 2 (0 :: hashes).length := by
      have := Nat.le_pow_clog (by decide : 1 < 2) (0 :: hashes ++ [0]).length
      rw [← hclog] at this
      omega
    have hzero := getLast_of_root_concat (cons_ne_nil _ _) hfits hapart heq
    obtain ⟨h, hget, hne⟩ := hlast
    rw [getLast?_cons, hget, Option.getD_some, Option.some.injEq] at hzero
    exact hne hzero
  · obtain ⟨k, hk⟩ := Nat.exists_eq_add_of_lt hclog
    rw [hk, add_assoc] at heq hapart
    obtain ⟨q, hq, hnode⟩ := head_of_root_eq hapart heq
    rw [← add_assoc, ← hk] at hq
    have hmem : serUint256 q.1 ++ serUint256 q.2 ∈ merkleStrings hash256 (0 :: hashes ++ [0]) :=
      mem_map_of_mem hq
    exact (hsigned _ hmem).2 hnode.symm

end

end

/-! ## The check of a template -/

/-- The leaves that are committed to, and those the check finds in the template and in the signed
block. -/
def templateTrees (hash256 : List UInt8 → Uint256) (txs : List CTransaction) : List (List Uint256) :=
  let hashes := txs.map (getWitnessHash hash256)
  [0 :: hashes, 0 :: hashes.tail ++ [0], 0 :: hashes ++ [0]]

/-- The strings that are hashed for the commitment and for the two checks. -/
def templateStrings (hash256 : List UInt8 → Uint256) (txs : List CTransaction) : List (List UInt8) :=
  txs.map (serialize · true) ++ (templateTrees hash256 txs).flatMap (merkleStrings hash256) ++
    (templateTrees hash256 txs).map fun leaves =>
      serUint256 (computeMerkleRoot hash256 leaves).1 ++ zeroNonce

section

variable (hleaves : leaves ∈ templateTrees hash256 txs)

include hleaves

theorem node_mem_templateStrings {s : List UInt8} (hs : s ∈ merkleStrings hash256 leaves) :
    s ∈ templateStrings hash256 txs :=
  mem_append_left _ (mem_append_right _ (mem_flatMap.mpr ⟨leaves, hleaves, hs⟩))

theorem root_mem_templateStrings :
    serUint256 (computeMerkleRoot hash256 leaves).1 ++ zeroNonce ∈ templateStrings hash256 txs :=
  mem_append_right _ (mem_map_of_mem hleaves)

end

section

variable {env : Env} {chain : PrevChain} {state : CValidationState} {block : CBlock}
  {coinbase : CTransaction}

theorem isWitnessCommitment_commitmentScript (commitment : Uint256) :
    isWitnessCommitment ⟨0, commitmentScript commitment⟩ = true := by
  have hlen : (commitmentScript commitment).length = 38 := by
    rfl
  simp only [isWitnessCommitment, hlen, decide_eq_true_eq]
  exact ⟨le_refl 38, rfl⟩

section

variable (hvtx : block.vtx = coinbase :: txs)
  (hsegwit : env.versionBitsActive .DEPLOYMENT_SEGWIT chain = true)
include hvtx hsegwit

theorem updateUncommittedBlockStructures_vtx
    (hcommitment : (witnessCommitment coinbase).isSome) (hwit : coinbase.wit = [])
    (hvin : coinbase.vin ≠ []) :
    (updateUncommittedBlockStructures env chain block).vtx = withNonce coinbase hvin :: txs := by
  unfold updateUncommittedBlockStructures
  split
  · rename_i hnil
    rw [hvtx] at hnil
    cases hnil
  · rename_i coinbase' rest hcons
    rw [hvtx] at hcons
    cases hcons
    rw [dif_pos ⟨hcommitment, hsegwit, hwit, hvin⟩]

/-- The template of transactions with a witness: the commitment is the last output of the coinbase,
and the nonce its witness. -/
theorem generateCoinbaseCommitment_vtx
    (hnone : witnessCommitment coinbase = none) (hwit : coinbase.wit = [])
    (hvin : coinbase.vin ≠ []) (hwitness : txs.any (·.hasWitness) = true) :
    ∃ committed, (generateCoinbaseCommitment env chain block).vtx = committed :: txs ∧
      committed.wit = [[zeroNonce]] ∧
      witnessCommitment committed = some ⟨0, commitmentScript (env.hash256 (serUint256
        (computeMerkleRoot env.hash256 (0 :: txs.map (getWitnessHash env.hash256))).1 ++
          zeroNonce))⟩ := by
  have hleaves : templateLeaves env.hash256 block = 0 :: txs.map (getWitnessHash env.hash256) := by
    rw [templateLeaves, hvtx]
    rfl
  have hadd : (addCommitment env chain block).vtx = { coinbase with vout := coinbase.vout ++
      [⟨0, commitmentScript (env.hash256 (serUint256 (computeMerkleRoot env.hash256
        (0 :: txs.map (getWitnessHash env.hash256))).1 ++ zeroNonce))⟩] } :: txs := by
    simp only [addCommitment, hvtx, hwitness, hsegwit, hnone, hleaves, and_self, if_true]
  have hfound : ∀ hash, witnessCommitment
      { coinbase with vout := coinbase.vout ++ [⟨0, commitmentScript hash⟩] } =
        some ⟨0, commitmentScript hash⟩ := by
    intro hash
    rw [witnessCommitment, filter_append,
      filter_cons_of_pos (isWitnessCommitment_commitmentScript hash), filter_nil,
      getLast?_concat]
  refine ⟨_, updateUncommittedBlockStructures_vtx hadd hsegwit ?_ hwit hvin, rfl, hfound _⟩
  rw [hfound]
  rfl

end

/-- Without witnesses the template stays as it is. -/
theorem generateCoinbaseCommitment_eq_self (hvtx : block.vtx = coinbase :: txs)
    (hnone : witnessCommitment coinbase = none) (hwitness : txs.any (·.hasWitness) = false) :
    generateCoinbaseCommitment env chain block = block := by
  have hadd : addCommitment env chain block = block := by
    simp only [addCommitment, hvtx, hwitness, Bool.false_eq_true, false_and, if_false]
  rw [generateCoinbaseCommitment, hadd, updateUncommittedBlockStructures]
  simp only [hvtx, hnone, Option.isSome_none, Bool.false_eq_true, false_and, dite_false]

/-- A block that passes has the root its coinbase commits to. -/
theorem root_eq_of_passesWitness {rest : List CTransaction}
    (hinj : Set.InjOn env.hash256 {s | s ∈ templateStrings env.hash256 txs})
    (hvtx : block.vtx = coinbase :: rest)
    (hsegwit : env.versionBitsActive .DEPLOYMENT_SEGWIT chain = true)
    (hwit : coinbase.wit = [[zeroNonce]])
    (hfound : witnessCommitment coinbase = some ⟨0, commitmentScript (env.hash256
      (serUint256 (computeMerkleRoot env.hash256 leaves).1 ++ zeroNonce))⟩)
    (hmem : leaves ∈ templateTrees env.hash256 txs)
    (hmem' : witnessLeaves env.hash256 block ∈ templateTrees env.hash256 txs)
    (h : passesWitness env chain state block = true) : (computeMerkleRoot env.hash256 leaves).1 =
      (computeMerkleRoot env.hash256 (witnessLeaves env.hash256 block)).1 := by
  rw [passesWitness, hvtx] at h
  obtain ⟨u, hcheck⟩ := accepts_iff.mp h
  rw [checkWitness, if_pos hsegwit, hfound] at hcheck
  obtain ⟨nonce, hnonce, -, hhash⟩ := checkWitnessCommitment_eq_ok.mp hcheck
  have hzero : nonce = zeroNonce := by
    rw [hwit] at hnonce
    exact (List.cons.inj (List.cons.inj hnonce).1).1.symm
  have hscript : ∀ hash, ((commitmentScript hash).drop 6).take 32 = serUint256 hash := by
    intro hash
    exact take_of_length_le (length_leBytes 32 _).le
  rw [hzero, hscript] at hhash
  have hstrings := hinj (root_mem_templateStrings hmem') (root_mem_templateStrings hmem)
    (determines_serUint256.view_eq trivial trivial hhash)
  exact (determines_serUint256 trivial trivial hstrings).1.symm

/-- Without a commitment no transaction may have a witness. -/
theorem passesWitness_iff_of_none (hvtx : block.vtx = coinbase :: txs)
    (hnone : witnessCommitment coinbase = none) (hwit : coinbase.wit = []) :
    passesWitness env chain state block = true ↔ ∀ tx ∈ txs, tx.hasWitness = false := by
  have hcoinbase : coinbase.hasWitness = false := by rw [hasWitness, hwit]; rfl
  rw [passesWitness, hvtx]
  simp only [checkWitness, hnone, ite_self, accepts_iff, rejectIf_eq_ok, hvtx, any_cons,
    hcoinbase, Bool.false_or, any_eq_false, exists_const, Bool.not_eq_true]

/-- What the check makes of a template. -/
theorem witnessLeaves_template (hash256 : List UInt8 → Uint256) (hvtx : block.vtx = coinbase :: txs)
    (hne : txs ≠ []) : witnessLeaves hash256 block =
      0 :: (txs.map (getWitnessHash hash256)).tail ++ [0] := by
  have hpos := length_pos_iff.mpr hne
  have hpad : txs.length + 1 - 1 - (txs.length - 1) = 1 := by omega
  rw [witnessLeaves, hvtx, drop_succ_cons, drop_one, map_tail, length_tail,
    length_map, length_cons, hpad]
  rfl

/-- And of a signed block. -/
theorem witnessLeaves_signed (hash256 : List UInt8 → Uint256) {txCoinStake : CTransaction}
    (hvtx : block.vtx = coinbase :: txCoinStake :: txs) : witnessLeaves hash256 block =
      0 :: txs.map (getWitnessHash hash256) ++ [0] := by
  have hpad : txs.length + 1 + 1 - 1 - txs.length = 1 := by omega
  rw [witnessLeaves, hvtx, drop_succ_cons, drop_succ_cons, drop_zero,
    length_map, length_cons, length_cons, hpad]
  rfl

/-- The last witness hash is not zero. -/
theorem getLast_witnessHashes (hne : txs ≠ [])
    (hzero : ∀ s ∈ templateStrings hash256 txs, hash256 s ≠ 0) :
    ∃ h, (txs.map (getWitnessHash hash256)).getLast? = some h ∧ h ≠ 0 := by
  refine ⟨(txs.getLast hne).getWitnessHash hash256, ?_, hzero _ ?_⟩
  · rw [getLast?_map, getLast?_eq_some_getLast hne, Option.map_some]
  · exact mem_append_left _ (mem_append_left _ (mem_map_of_mem (getLast_mem hne)))

/-- **A node's own blocks against its own witness rule**: a template passes exactly if none of its
transactions has a witness, and so does the proof-of-stake block made of it, the coinstake
included. -/
theorem template_witness_check_iff (hvtx : block.vtx = coinbase :: txs)
    (hsegwit : env.versionBitsActive .DEPLOYMENT_SEGWIT chain = true)
    (hnone : witnessCommitment coinbase = none) (hwit : coinbase.wit = [])
    (hvin : coinbase.vin ≠ [])
    (hinj : Set.InjOn env.hash256 {s | s ∈ templateStrings env.hash256 txs})
    (hzero : ∀ s ∈ templateStrings env.hash256 txs, env.hash256 s ≠ 0)
    (txCoinStake : CTransaction) (vchBlockSig : List UInt8) :
    (passesWitness env chain state (generateCoinbaseCommitment env chain block) = true ↔
      ∀ tx ∈ txs, tx.hasWitness = false) ∧
    (passesWitness env chain state (signBlock env.hash256 (generateCoinbaseCommitment env chain block)
        txCoinStake vchBlockSig) = true ↔ ∀ tx ∈ txCoinStake :: txs, tx.hasWitness = false) := by
  cases hwitness : txs.any (·.hasWitness) with
  | false =>
    rw [generateCoinbaseCommitment_eq_self hvtx hnone hwitness]
    refine ⟨passesWitness_iff_of_none hvtx hnone hwit, ?_⟩
    have hsigned : (signBlock env.hash256 block txCoinStake vchBlockSig).vtx =
        { coinbase with nTime := txCoinStake.nTime } :: txCoinStake :: txs := by
      rw [signBlock, hvtx]
    exact passesWitness_iff_of_none hsigned hnone hwit
  | true =>
    have hsome : ¬∀ tx ∈ txs, tx.hasWitness = false := by
      intro hall
      obtain ⟨tx, htx, h⟩ := any_eq_true.mp hwitness
      rw [hall tx htx] at h
      cases h
    have hne : txs ≠ [] := by
      rintro rfl
      cases hwitness
    have hlast := getLast_witnessHashes hne hzero
    obtain ⟨committed, htemplate, hnonce, hfound⟩ :=
      generateCoinbaseCommitment_vtx hvtx hsegwit hnone hwit hvin hwitness
    have hleaves := witnessLeaves_template env.hash256 htemplate hne
    have hsigned : (signBlock env.hash256 (generateCoinbaseCommitment env chain block) txCoinStake
        vchBlockSig).vtx = { committed with nTime := txCoinStake.nTime } :: txCoinStake :: txs := by
      rw [signBlock, htemplate]
    have hleaves' := witnessLeaves_signed env.hash256 hsigned
    have hcommitted : 0 :: txs.map (getWitnessHash env.hash256) ∈
        templateTrees env.hash256 txs := mem_cons_self
    have hchecked : 0 :: (txs.map (getWitnessHash env.hash256)).tail ++ [0] ∈
        templateTrees env.hash256 txs := mem_cons_of_mem _ mem_cons_self
    have hchecked' : 0 :: txs.map (getWitnessHash env.hash256) ++ [0] ∈
        templateTrees env.hash256 txs := mem_cons_of_mem _ (mem_cons_of_mem _ mem_cons_self)
    refine ⟨iff_of_false (fun hpass => ?_) hsome, iff_of_false (fun hpass => ?_) fun hall =>
      hsome fun tx htx => hall tx (mem_cons_of_mem _ htx)⟩
    · have hroot := root_eq_of_passesWitness hinj htemplate hsegwit hnonce hfound hcommitted
        (hleaves ▸ hchecked) hpass
      rw [hleaves] at hroot
      exact template_root_ne hinj (fun s hs => node_mem_templateStrings hcommitted hs)
        (fun s hs => node_mem_templateStrings hchecked hs) hlast hroot
    · have hroot := root_eq_of_passesWitness hinj hsigned hsegwit hnonce hfound hcommitted
        (hleaves' ▸ hchecked') hpass
      rw [hleaves'] at hroot
      exact signed_root_ne hinj (fun s hs => node_mem_templateStrings hcommitted hs)
        (fun s hs => ⟨node_mem_templateStrings hchecked' hs,
          hzero s (node_mem_templateStrings hchecked' hs)⟩) hlast hroot

end

/-! ## A template with one witness -/

def witnessedPayment : CTransaction :=
  { samplePayment 0 1532376000 [0x51] COIN with
    wit := [[[1]]]
    wit_le := oneWitness_le (cons_ne_nil _ _) }

/-- What `CreateNewBlock` hands to `GenerateCoinbaseCommitment`: a coinbase and a payment with a
witness. -/
def sampleTemplate : CBlock :=
  sampleBlock 100 1532376000 0x1f00ffff [] [sampleCoinbase 100 1532376000 0 [], witnessedPayment]

theorem templateStrings_injOn : ∀ s ∈ templateStrings sampleHash [witnessedPayment],
    ∀ t ∈ templateStrings sampleHash [witnessedPayment], sampleHash s = sampleHash t → s = t := by
  decide +kernel

theorem templateStrings_ne_zero :
    ∀ s ∈ templateStrings sampleHash [witnessedPayment], sampleHash s ≠ 0 := by
  decide +kernel

/-- The template against its own commitment, by the law. -/
theorem sampleTemplate_fails : passesWitness segwitEnv (sampleChain 100) {}
      (generateCoinbaseCommitment segwitEnv (sampleChain 100) sampleTemplate) ≠ true := by
  intro hpass
  have hvtx : sampleTemplate.vtx = sampleCoinbase 100 1532376000 0 [] :: [witnessedPayment] := rfl
  have hsegwit : segwitEnv.versionBitsActive .DEPLOYMENT_SEGWIT (sampleChain 100) = true := rfl
  have hnone : witnessCommitment (sampleCoinbase 100 1532376000 0 []) = none := by decide +kernel
  have hall := (template_witness_check_iff hvtx hsegwit hnone rfl (cons_ne_nil _ _)
    (fun s hs t ht => templateStrings_injOn s hs t ht) templateStrings_ne_zero
    (sampleStake 1 1532376016 [0x51] COIN) [1]).1.mp hpass
  have hwitness : witnessedPayment.hasWitness = true := by decide
  rw [hall witnessedPayment mem_cons_self] at hwitness
  cases hwitness

/-- Segregated witnesses are active, a payment of the template has a witness and its commitment has
been generated: the template is refused, and so is the block made of it by putting a coinstake
in. -/
theorem own_blocks_refused :
    segwitEnv.versionBitsActive .DEPLOYMENT_SEGWIT (sampleChain 100) = true ∧
    witnessedPayment ∈ sampleTemplate.vtx ∧ witnessedPayment.hasWitness = true ∧
    (generateCoinbaseCommitment segwitEnv (sampleChain 100) sampleTemplate).hasCommitment = true ∧
    passesWitness segwitEnv (sampleChain 100) {}
      (generateCoinbaseCommitment segwitEnv (sampleChain 100) sampleTemplate) = false ∧
    (sampleStake 1 1532376016 [0x51] COIN).isCoinStake = true ∧
    passesWitness segwitEnv (sampleChain 100) {}
      (signBlock sampleHash (generateCoinbaseCommitment segwitEnv (sampleChain 100) sampleTemplate)
        (sampleStake 1 1532376016 [0x51] COIN) [1]) = false := by
  decide +kernel

end Chratos
