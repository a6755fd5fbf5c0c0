import Chratos.Chain.Context
import Chratos.Consensus.MerkleRows
import Chratos.Primitives.Unserialize
import Chratos.Lib.BitPack

/-!
# Chratos — partial merkle trees (`merkleblock.h`, `merkleblock.cpp`)

A depth-first walk over the tree of a block's transactions writes one bit for each node it meets,
whether a matched transaction is below it, and the hash of each node it does not descend from.
Reading walks in the same order and consumes bits and hashes.
-/

namespace Chratos

open MerkleTree Codec BitPack List

variable {pos height n : Nat} {vTxid : List Uint256} {vMatch : List Bool}

structure CPartialMerkleTree where
  nTransactions : UInt32
  vBits : List Bool
  vHash : List Uint256
  fBad : Bool := false

namespace CPartialMerkleTree

/-! ## Building -/

/-- `CalcTreeWidth`: the number of nodes at a height, in 32-bit arithmetic. -/
def calcTreeWidth (nTransactions height : Nat) : Nat :=
  (nTransactions + 2 ^ height - 1) % 2 ^ 32 / 2 ^ height

section

variable (hash256 : List UInt8 → Uint256) (nTransactions : Nat) (vTxid : List Uint256)

def calcHash : Nat → Nat → Uint256
  | 0, pos => vTxid.getD pos 0
  | height + 1, pos =>
    let left := calcHash height (pos * 2)
    let right :=
      if pos * 2 + 1 < calcTreeWidth nTransactions height then
        calcHash height (pos * 2 + 1)
      else left
    hashPair hash256 left right

/-- The places of the leaves below a node, those behind the last one included. -/
def leavesBelow (height pos : Nat) : List Nat := List.range' (pos * 2 ^ height) (2 ^ height)

/-- The loop at the beginning of `TraverseAndBuild`. -/
def parentOfMatch (vMatch : List Bool) (height pos : Nat) : Bool :=
  (leavesBelow height pos).any fun p => p < nTransactions && vMatch.getD p false

/-- `TraverseAndBuild`: the bits and the hashes that it appends. -/
def traverseAndBuild (vMatch : List Bool) : Nat → Nat → List Bool × List Uint256
  | 0, pos =>
    ([parentOfMatch nTransactions vMatch 0 pos], [calcHash hash256 nTransactions vTxid 0 pos])
  | height + 1, pos =>
    if parentOfMatch nTransactions vMatch (height + 1) pos then
      let left := traverseAndBuild vMatch height (pos * 2)
      if pos * 2 + 1 < calcTreeWidth nTransactions height then
        let right := traverseAndBuild vMatch height (pos * 2 + 1)
        (true :: (left.1 ++ right.1), left.2 ++ right.2)
      else (true :: left.1, left.2)
    else ([false], [calcHash hash256 nTransactions vTxid (height + 1) pos])

/-- The loop that looks for the height of the tree; the first argument is the number of heights left
that an `int` can be shifted by. -/
def treeHeight : Nat → Nat → Nat
  | 0, nHeight => nHeight
  | heights + 1, nHeight =>
    if 1 < calcTreeWidth nTransactions nHeight then treeHeight heights (nHeight + 1)
    else nHeight

end

/-- The constructor from transaction hashes and a mask. -/
def build (hash256 : List UInt8 → Uint256) (vTxid : List Uint256) (vMatch : List Bool) :
    CPartialMerkleTree :=
  let nTransactions := UInt32.ofNat vTxid.length
  let written := traverseAndBuild hash256 nTransactions.toNat vTxid vMatch
    (treeHeight nTransactions.toNat 32 0) 0
  { nTransactions := nTransactions
    vBits := written.1
    vHash := written.2 }

/-! ## Extracting -/

/-- What `TraverseAndExtract` passes along by reference, and the flag of the tree. -/
structure Extract where
  nBitsUsed : Nat := 0
  nHashUsed : Nat := 0
  fBad : Bool := false
  vMatch : List Uint256 := []
  vnIndex : List Nat := []

/-- A bit is consumed. -/
def Extract.useBit (s : Extract) : Extract := { s with nBitsUsed := s.nBitsUsed + 1 }

def Extract.bad (s : Extract) : Extract := { s with fBad := true }

/-- A hash is consumed; of a leaf whose bit is set it is a match. -/
def Extract.useHash (s : Extract) (fMatch : Bool) (hash : Uint256) (pos : Nat) : Extract :=
  { s with
    nHashUsed := s.nHashUsed + 1
    vMatch := if fMatch then s.vMatch ++ [hash] else s.vMatch
    vnIndex := if fMatch then s.vnIndex ++ [pos] else s.vnIndex }

variable (hash256 : List UInt8 → Uint256) (t : CPartialMerkleTree)

/-- The branch of `TraverseAndExtract` that does not descend. -/
def takeHash (fMatch : Bool) (pos : Nat) (s : Extract) : Uint256 × Extract :=
  match t.vHash[s.nHashUsed]? with
  | none => (0, s.bad)
  | some hash => (hash, s.useHash fMatch hash pos)

/-- `TraverseAndExtract`. -/
def traverseAndExtract : Nat → Nat → Extract → Uint256 × Extract
  | 0, pos, s =>
    match t.vBits[s.nBitsUsed]? with
    | none => (0, s.bad)
    | some fParentOfMatch => t.takeHash fParentOfMatch pos s.useBit
  | height + 1, pos, s =>
    match t.vBits[s.nBitsUsed]? with
    | none => (0, s.bad)
    | some false => t.takeHash false pos s.useBit
    | some true =>
      let left := traverseAndExtract height (pos * 2) s.useBit
      if pos * 2 + 1 < calcTreeWidth t.nTransactions.toNat height then
        let right := traverseAndExtract height (pos * 2 + 1) left.2
        (hashPair hash256 left.1 right.1, if right.1 = left.1 then right.2.bad else right.2)
      else (hashPair hash256 left.1 left.1, left.2)

/-- `ExtractMatches`, into vectors that are empty: the root, the matches and their places. -/
def extractMatches : Uint256 × List Uint256 × List Nat :=
  let nTransactions := t.nTransactions.toNat
  if nTransactions = 0 then (0, [], [])
  else if MAX_BLOCK_BASE_SIZE / 60 < nTransactions then (0, [], [])
  else if nTransactions < t.vHash.length then (0, [], [])
  else if t.vBits.length < t.vHash.length then (0, [], [])
  else
    let found := t.traverseAndExtract hash256 (treeHeight nTransactions 32 0) 0 { fBad := t.fBad }
    let root :=
      if found.2.fBad then 0
      else if (found.2.nBitsUsed + 7) / 8 ≠ (t.vBits.length + 7) / 8 then 0
      else if found.2.nHashUsed ≠ t.vHash.length then 0
      else found.1
    (root, found.2.vMatch, found.2.vnIndex)

/-! ## The serialised form -/

def serialize : List UInt8 :=
  serUInt32 t.nTransactions ++ serVector serUint256 t.vHash ++ serBytes (packBits t.vBits)

def unserialize : Reader CPartialMerkleTree := do
  let nTransactions ← unserUInt32
  let vHash ← unserVector unserUint256
  let vBytes ← unserBytes
  pure { nTransactions := nTransactions, vBits := unpackBits vBytes, vHash := vHash }

/-- What is written is read back, with the bits filled up to whole bytes. -/
theorem reads_unserialize {t : CPartialMerkleTree} (hgood : t.fBad = false)
    (hhashes : t.vHash.length ≤ MAX_SIZE) (hbits : (t.vBits.length + 7) / 8 ≤ MAX_SIZE) :
    Reads unserialize t.serialize
      { t with vBits :=
        t.vBits ++ List.replicate ((t.vBits.length + 7) / 8 * 8 - t.vBits.length) false } := by
  have hvector : Reads (unserVector unserUint256) (serVector serUint256 t.vHash) t.vHash := by
    have hread := reads_unserVector (g := id) hhashes fun h _ => reads_unserUint256 h
    rwa [map_id] at hread
  have hbytes : Reads unserBytes (serBytes (packBits t.vBits)) (packBits t.vBits) :=
    reads_unserBytes (by rw [length_packBits]; exact hbits)
  have hlast := hbytes.map fun vBytes => ({ nTransactions := t.nTransactions
                                            vBits := unpackBits vBytes
                                            vHash := t.vHash } : CPartialMerkleTree)
  rw [unpackBits_packBits] at hlast
  rw [serialize, append_assoc, hgood]
  exact (reads_unserUInt32 t.nTransactions).bind (hvector.bind hlast)

/-! ## Nodes -/

variable {hash256 : List UInt8 → Uint256} {s : Extract} {i D : Nat} {α : Type}
  {restH : List Uint256} {fMatch : Bool}

theorem lt_calcTreeWidth_iff (hn : n ≤ 2 ^ 31) (hheight : height ≤ 31) :
    pos < calcTreeWidth n height ↔ pos * 2 ^ height < n := by
  have hpow : 2 ^ height ≤ 2 ^ 31 := Nat.pow_le_pow_right (by decide) hheight
  rw [calcTreeWidth, Nat.mod_eq_of_lt (by omega)]
  exact lt_rowWidth_iff

/-- `CalcHash` computes the nodes. -/
theorem calcHash_eq (hn : vTxid.length ≤ 2 ^ 31) (hheight : height ≤ 31) (pos : Nat) :
    calcHash hash256 vTxid.length vTxid height pos = node (hashPair hash256) vTxid height pos := by
  induction height generalizing pos with
  | zero => rfl
  | succ height ih =>
    rw [calcHash, node, ih (by omega), ih (by omega), mul_comm pos 2]
    by_cases hright : 2 * pos + 1 < calcTreeWidth vTxid.length height
    · rw [if_pos hright, if_pos ((lt_calcTreeWidth_iff hn (by omega)).mp hright)]
    · rw [if_neg hright, if_neg (mt (lt_calcTreeWidth_iff hn (by omega)).mpr hright)]

/-- The loop stops at the height of the tree. -/
theorem treeHeight_eq (hn : n ≤ 2 ^ 31) : treeHeight n 32 0 = Nat.clog 2 n := by
  have hclog : Nat.clog 2 n ≤ 31 := Nat.clog_le_of_le_pow hn
  have hloop : ∀ heights h, h ≤ Nat.clog 2 n → Nat.clog 2 n < h + heights →
      treeHeight n heights h = Nat.clog 2 n := by
    intro heights
    induction heights with
    | zero =>
      intro h hle hlt
      omega
    | succ heights ih =>
      intro h hle hlt
      rw [treeHeight]
      by_cases hmore : 1 < calcTreeWidth n h
      · have hpow : 2 ^ h < n := by
          have := (lt_calcTreeWidth_iff hn (by omega)).mp hmore
          rwa [one_mul] at this
        rw [if_pos hmore]
        exact ih (h + 1) ((Nat.lt_clog_iff_pow_lt (by decide)).mpr hpow) (by omega)
      · have hfits : n ≤ 2 ^ h := by
          have := mt (lt_calcTreeWidth_iff hn (by omega)).mpr hmore
          omega
        rw [if_neg hmore]
        exact le_antisymm hle (Nat.clog_le_of_le_pow hfits)
  exact hloop 32 0 (Nat.zero_le _) (by omega)

/-! ## Matches -/

/-- The places of the matched transactions below a node. -/
def matchesBelow (n : Nat) (vMatch : List Bool) (height pos : Nat) : List Nat :=
  (leavesBelow height pos).filter fun p => p < n && vMatch.getD p false

theorem leavesBelow_succ (height pos : Nat) : leavesBelow (height + 1) pos =
      leavesBelow height (pos * 2) ++ leavesBelow height (pos * 2 + 1) := by
  rw [leavesBelow, leavesBelow, leavesBelow, mul_two_pow_succ, Nat.mul_comm 2 pos,
    add_mul (pos * 2) 1, one_mul, range'_append_1, Nat.two_pow_succ]

theorem matchesBelow_succ (height pos : Nat) : matchesBelow n vMatch (height + 1) pos =
      matchesBelow n vMatch height (pos * 2) ++ matchesBelow n vMatch height (pos * 2 + 1) := by
  rw [matchesBelow, leavesBelow_succ, filter_append]
  rfl

theorem matchesBelow_eq_nil (h : parentOfMatch n vMatch height pos = false) :
    matchesBelow n vMatch height pos = [] := by
  rw [matchesBelow, filter_eq_nil_iff]
  intro p hp
  exact any_eq_false.mp h p hp

/-- Nothing matches behind the last transaction. -/
theorem matchesBelow_of_le (h : n ≤ pos * 2 ^ height) : matchesBelow n vMatch height pos = [] := by
  rw [matchesBelow, filter_eq_nil_iff]
  intro p hp
  have hge := (mem_range'_1.mp hp).1
  have hnot : ¬ p < n := by omega
  simp [hnot]

theorem matchesBelow_zero (pos : Nat) :
    matchesBelow n vMatch 0 pos = if parentOfMatch n vMatch 0 pos then [pos] else [] := by
  have hleaf : leavesBelow 0 pos = [pos] := by
    rw [leavesBelow, pow_zero, mul_one]
    rfl
  rw [matchesBelow, parentOfMatch, hleaf, any_cons, any_nil, Bool.or_false, filter_cons, filter_nil]

/-! ## Reading what has been written -/

theorem getElem?_of_drop_eq_cons {l rest : List α} {a : α} (h : l.drop i = a :: rest) :
    l[i]? = some a ∧ l.drop (i + 1) = rest := by
  refine ⟨?_, ?_⟩
  · rw [← head?_drop, h, head?_cons]
  · rw [← tail_drop, h, tail_cons]

/-- Reading has consumed bits and hashes and has found the places of matches. -/
def Extract.found (s : Extract) (vTxid : List Uint256) (written : List Bool × List Uint256)
    (places : List Nat) : Extract where
  nBitsUsed := s.nBitsUsed + written.1.length
  nHashUsed := s.nHashUsed + written.2.length
  fBad := s.fBad
  vMatch := s.vMatch ++ places.map fun p => vTxid.getD p 0
  vnIndex := s.vnIndex ++ places

theorem Extract.found_found {left right : List Bool × List Uint256}
    {below behind : List Nat} : (s.useBit.found vTxid left below).found vTxid right behind =
      s.found vTxid (true :: (left.1 ++ right.1), left.2 ++ right.2) (below ++ behind) := by
  simp [Extract.found, Extract.useBit]
  omega

variable {t : CPartialMerkleTree}

/-- A node that is not descended from. -/
theorem takeHash_eq {hash : Uint256} (hhash : t.vHash.drop s.nHashUsed = hash :: restH) :
    t.takeHash fMatch pos s.useBit = (hash, s.useBit.useHash fMatch hash pos) := by
  have hnext : t.vHash[s.useBit.nHashUsed]? = some hash := (getElem?_of_drop_eq_cons hhash).1
  rw [takeHash, hnext]

theorem drop_found {l first second : List α} (h : l.drop i = first ++ second) :
    l.drop (i + first.length) = second := by
  rw [← drop_drop, h, drop_left]

/-- **Reading what has been written**: the hash of the node, the matches below it, and everything that
was written is consumed. The induction follows both walks down the tree. -/
theorem traverseAndExtract_build (hn : vTxid.length ≤ 2 ^ 31)
    (hcount : t.nTransactions.toNat = vTxid.length) (hD : D ≤ 31)
    (hdiffer : ∀ d p, d + 1 ≤ D → (2 * p + 1) * 2 ^ d < vTxid.length →
      node (hashPair hash256) vTxid d (2 * p) ≠ node (hashPair hash256) vTxid d (2 * p + 1))
    (hheight : height ≤ D) {restB : List Bool} (hbits : t.vBits.drop s.nBitsUsed =
      (traverseAndBuild hash256 vTxid.length vTxid vMatch height pos).1 ++ restB)
    (hhash : t.vHash.drop s.nHashUsed =
      (traverseAndBuild hash256 vTxid.length vTxid vMatch height pos).2 ++ restH) :
    t.traverseAndExtract hash256 height pos s = (node (hashPair hash256) vTxid height pos,
        s.found vTxid (traverseAndBuild hash256 vTxid.length vTxid vMatch height pos)
          (matchesBelow vTxid.length vMatch height pos)) := by
  induction height generalizing pos s restB restH with
  | zero =>
    obtain ⟨hbit, -⟩ := getElem?_of_drop_eq_cons hbits
    rw [traverseAndExtract, hbit]
    show t.takeHash _ pos s.useBit = _
    rw [takeHash_eq hhash]
    refine Prod.ext rfl ?_
    rw [matchesBelow_zero, traverseAndBuild]
    cases parentOfMatch vTxid.length vMatch 0 pos with
    | false => simp [Extract.useHash, Extract.useBit, Extract.found]
    | true => simp [Extract.useHash, Extract.useBit, Extract.found, calcHash]
  | succ height ih =>
    have hle : height + 1 ≤ 31 := le_trans hheight hD
    rw [traverseAndExtract]
    rw [traverseAndBuild] at hbits hhash ⊢
    by_cases hparent : parentOfMatch vTxid.length vMatch (height + 1) pos = true
    · rw [if_pos hparent] at hbits hhash ⊢
      by_cases hright : pos * 2 + 1 < calcTreeWidth vTxid.length height
      · rw [if_pos hright] at hbits hhash ⊢
        rw [cons_append, append_assoc] at hbits
        rw [append_assoc] at hhash
        obtain ⟨hbit, hbits⟩ := getElem?_of_drop_eq_cons hbits
        have hin : (2 * pos + 1) * 2 ^ height < vTxid.length := by
          rw [mul_comm 2 pos]
          exact (lt_calcTreeWidth_iff hn (by omega)).mp hright
        have hleft := ih (by omega) (s := s.useBit) hbits hhash
        have hsecond := ih (by omega) (s := s.useBit.found vTxid
            (traverseAndBuild hash256 vTxid.length vTxid vMatch height (pos * 2))
            (matchesBelow vTxid.length vMatch height (pos * 2)))
          (drop_found hbits) (drop_found hhash)
        rw [hbit]
        simp only [hleft, hcount]
        rw [if_pos hright, hsecond, node, if_pos hin, mul_comm pos 2,
          if_neg (hdiffer height pos hheight hin).symm]
        rw [matchesBelow_succ, ← Extract.found_found, mul_comm pos 2]
      · -- the left node stands for the missing right one too
        rw [if_neg hright] at hbits hhash ⊢
        obtain ⟨hbit, hbits⟩ := getElem?_of_drop_eq_cons hbits
        have hout : ¬ (2 * pos + 1) * 2 ^ height < vTxid.length := by
          rw [mul_comm 2 pos]
          exact mt (lt_calcTreeWidth_iff hn (by omega)).mpr hright
        have hleft := ih (by omega) (s := s.useBit) hbits hhash
        rw [hbit]
        simp only [hleft, hcount]
        rw [if_neg hright, node, if_neg hout, mul_comm pos 2]
        refine Prod.ext rfl ?_
        have hbehind : vTxid.length ≤ (pos * 2 + 1) * 2 ^ height := by
          rw [mul_comm pos 2]
          exact Nat.le_of_not_lt hout
        rw [matchesBelow_succ, matchesBelow_of_le hbehind, append_nil, mul_comm pos 2]
        simp [Extract.found, Extract.useBit]
        omega
    · rw [if_neg hparent] at hbits hhash ⊢
      obtain ⟨hbit, -⟩ := getElem?_of_drop_eq_cons hbits
      rw [hbit]
      rw [takeHash_eq hhash, calcHash_eq hn hle,
        matchesBelow_eq_nil (Bool.eq_false_iff.mpr hparent)]
      refine Prod.ext rfl ?_
      simp [Extract.useHash, Extract.useBit, Extract.found]

/-! ## Sizes -/

/-- As many hashes as bits at most, as leaves at most, and a bit for each node below at most. -/
theorem length_traverseAndBuild (hn : n ≤ 2 ^ 31) (hheight : height ≤ 31)
    (hpos : pos * 2 ^ height < n) :
    (traverseAndBuild hash256 n vTxid vMatch height pos).2.length ≤
      min (2 ^ height) (n - pos * 2 ^ height) ∧
      (traverseAndBuild hash256 n vTxid vMatch height pos).2.length ≤
        (traverseAndBuild hash256 n vTxid vMatch height pos).1.length ∧
      (traverseAndBuild hash256 n vTxid vMatch height pos).1.length < 2 ^ (height + 1) := by
  induction height generalizing pos with
  | zero =>
    simp only [traverseAndBuild, length_singleton]
    omega
  | succ height ih =>
    rw [mul_two_pow_succ, mul_comm 2 pos] at hpos ⊢
    have hleft := ih (by omega) hpos
    rw [traverseAndBuild]
    by_cases hparent : parentOfMatch n vMatch (height + 1) pos = true
    · rw [if_pos hparent]
      by_cases hright : pos * 2 + 1 < calcTreeWidth n height
      · have hin := (lt_calcTreeWidth_iff hn (by omega)).mp hright
        have hsecond := ih (by omega) hin
        rw [add_mul (pos * 2) 1] at hsecond hin
        rw [if_pos hright]
        simp only [length_cons, length_append]
        omega
      · rw [if_neg hright]
        simp only [length_cons]
        omega
    · rw [if_neg hparent]
      simp only [length_singleton]
      omega

/-! ## Whatever is read -/

/-- The flag is never taken back. -/
theorem fBad_of_traverseAndExtract (h : (t.traverseAndExtract hash256 height pos s).2.fBad = false) :
    s.fBad = false := by
  have htake : ∀ {fMatch : Bool} {pos : Nat} {s : Extract},
      (t.takeHash fMatch pos s.useBit).2.fBad = false → s.fBad = false := by
    intro fMatch pos s h
    rw [takeHash] at h
    split at h
    · cases h
    · exact h
  induction height generalizing pos s with
  | zero =>
    rw [traverseAndExtract] at h
    split at h
    · cases h
    · exact htake h
  | succ height ih =>
    rw [traverseAndExtract] at h
    split at h
    · cases h
    · exact htake h
    · dsimp only at h
      split at h
      · split at h
        · cases h
        · exact ih (s := s.useBit) (ih h)
      · exact ih (s := s.useBit) h

/-- What reading has added to the matches: transactions of the list at their places. -/
def Genuine (vTxid : List Uint256) (s s' : Extract) : Prop :=
  ∃ places : List Nat, (∀ p ∈ places, p < vTxid.length) ∧
    s'.vMatch = s.vMatch ++ places.map (fun p => vTxid.getD p 0) ∧ s'.vnIndex = s.vnIndex ++ places

theorem Genuine.trans {s' s'' : Extract} (h : Genuine vTxid s s') (h' : Genuine vTxid s' s'') :
    Genuine vTxid s s'' := by
  obtain ⟨places, hin, hmatch, hindex⟩ := h
  obtain ⟨places', hin', hmatch', hindex'⟩ := h'
  refine ⟨places ++ places', ?_, ?_, ?_⟩
  · intro p hp
    exact (mem_append.mp hp).elim (hin p) (hin' p)
  · rw [hmatch', hmatch, map_append, append_assoc]
  · rw [hindex', hindex, append_assoc]

theorem Genuine.takeHash
    (hleaf : fMatch = true → pos < vTxid.length ∧ (t.takeHash fMatch pos s.useBit).1 = vTxid.getD pos 0)
    (hgood : (t.takeHash fMatch pos s.useBit).2.fBad = false) :
    Genuine vTxid s (t.takeHash fMatch pos s.useBit).2 := by
  rw [CPartialMerkleTree.takeHash] at hleaf hgood ⊢
  split at hgood
  · cases hgood
  · rename_i hash hhash
    simp only [hhash] at hleaf ⊢
    cases fMatch with
    | false => exact ⟨[], nofun, (append_nil _).symm, (append_nil _).symm⟩
    | true =>
      obtain ⟨hpos, rfl⟩ := hleaf rfl
      exact ⟨[pos], fun p hp => mem_singleton.mp hp ▸ hpos, rfl, rfl⟩

/-- **Whatever is read**: if the hash of a node is genuine and the tree is not bad, the matches found
below it are. Where the pairs of the list have no other preimage, genuine hashes are passed down. -/
theorem Genuine.traverseAndExtract (hn : vTxid.length ≤ 2 ^ 31)
    (hcount : t.nTransactions.toNat = vTxid.length) (hD : D ≤ 31) (hfits : vTxid.length ≤ 2 ^ D)
    (hpreimage : ∀ q ∈ nodes (hashPair hash256) D vTxid, ∀ a b,
      hashPair hash256 a b = hashPair hash256 q.1 q.2 → (a, b) = q) (hheight : height ≤ D)
    (hpos : pos * 2 ^ height < vTxid.length)
    (hgood : (t.traverseAndExtract hash256 height pos s).2.fBad = false)
    (hhash : (t.traverseAndExtract hash256 height pos s).1 = node (hashPair hash256) vTxid height pos) :
    Genuine vTxid s (t.traverseAndExtract hash256 height pos s).2 := by
  induction height generalizing pos s with
  | zero =>
    rw [CPartialMerkleTree.traverseAndExtract] at hgood hhash ⊢
    split at hgood
    · cases hgood
    · rename_i fMatch hbit
      simp only [hbit] at hhash ⊢
      rw [pow_zero, mul_one] at hpos
      exact .takeHash (fun _ => ⟨hpos, hhash⟩) hgood
  | succ height ih =>
    have hchildren := hpreimage _ (children_mem_nodes hpos hheight hfits)
    have hleft : pos * 2 * 2 ^ height < vTxid.length := by
      rwa [mul_two_pow_succ, mul_comm 2 pos] at hpos
    rw [CPartialMerkleTree.traverseAndExtract] at hgood hhash ⊢
    split at hgood
    · cases hgood
    · exact .takeHash nofun hgood
    · rename_i hbit
      simp only [hbit, hcount] at hgood hhash ⊢
      rw [node] at hhash
      by_cases hright : pos * 2 + 1 < calcTreeWidth vTxid.length height
      · have hin : (pos * 2 + 1) * 2 ^ height < vTxid.length :=
          (lt_calcTreeWidth_iff hn (by omega)).mp hright
        rw [mul_comm 2 pos, if_pos hin] at hchildren hhash
        rw [if_pos hright] at hgood hhash ⊢
        -- the pair of the node has no other preimage, so both children are genuine
        have hgenuine := Prod.mk.inj (hchildren _ _ hhash)
        split at hgood
        · cases hgood
        · rename_i hdiffer
          rw [if_neg hdiffer]
          have hfirst := ih (by omega) hleft (fBad_of_traverseAndExtract hgood) hgenuine.1
          have hsecond := ih (by omega) hin hgood hgenuine.2
          exact .trans (s := s) hfirst hsecond
      · have hout := mt (lt_calcTreeWidth_iff hn (by omega)).mpr hright
        rw [mul_comm 2 pos, if_neg hout] at hchildren hhash
        rw [if_neg hright] at hgood hhash ⊢
        have hgenuine := Prod.mk.inj (hchildren _ _ hhash)
        exact ih (s := s.useBit) (by omega) hleft hgood hgenuine.1

end CPartialMerkleTree

end Chratos
