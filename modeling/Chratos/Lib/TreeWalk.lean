import Chratos.Lib.Lineage
import Mathlib.Data.List.Flatten

/-!
# TreeWalk — depth-first search over parent pointers

A loop that goes through a tree kept as parent pointers without a stack: from a node to its first
child, and from a leaf up to the first ancestor that has another child. On the way it remembers, for
each kind of mark, the first marked node between the root and the current one. It forgets that node
again when it leaves it.
-/

/-- A tree, the marks of its nodes, and what is checked at each node: against the first marked nodes
above it and the height the loop has counted. -/
structure TreeWalk (ι κ : Type) where
  parent : ι → Option ι
  height : ι → Nat
  nodes : List ι
  marked : κ → ι → Bool
  check : ι → (κ → Option ι) → Nat → Bool

namespace TreeWalk

open List Option
open Lineage (Anc Rooted lineage)

variable {ι κ : Type} (w : TreeWalk ι κ)

/-! ## The loop -/

/-- A node that is the first with a mark is remembered, -/
def enter (first : κ → Option ι) (b : ι) : κ → Option ι := fun k =>
  if (first k).isNone && w.marked k b then some b else first k

/-- The first marked nodes between the root and a node. -/
def firsts (b : ι) : κ → Option ι := fun k =>
  (lineage w.parent w.height b).reverse.find? (w.marked k)

/-- And above the node. -/
def firstsAbove (b : ι) : κ → Option ι := fun k =>
  (lineage w.parent w.height b).tail.reverse.find? (w.marked k)

/-- All nodes of a list pass the check at the height they have. -/
def Passed (l : List ι) : Prop :=
  ∀ x ∈ l, w.check x (w.firsts x) (w.height x) = true

instance (l : List ι) : Decidable (w.Passed l) :=
  inferInstanceAs (Decidable (∀ x ∈ l, _))

/-- Where the loop is: at a node that it meets, or on the way up from one. -/
inductive Position (ι : Type) where
  | visit (b : ι)
  | climb (b : ι)

variable [DecidableEq ι]

/-- and forgotten when it is left. -/
def leave (first : κ → Option ι) (b : ι) : κ → Option ι := fun k =>
  if first k = some b then none else first k

/-- The nodes with the given parent, in the order of the list. -/
def children (p : Option ι) : List ι :=
  w.nodes.filter fun b => w.parent b = p

/-- The loop. It returns the number of nodes it has met, or nothing if a check has failed. -/
def walk : Nat → Position ι → Nat → (κ → Option ι) → Nat → Option Nat
  | 0, _, _, _, _ => none
  | n + 1, .visit b, height, first, nNodes =>
    let first := w.enter first b
    if w.check b first height then
      match w.children (some b) with
      | c :: _ => walk n (.visit c) (height + 1) first (nNodes + 1)
      | [] => walk n (.climb b) height first (nNodes + 1)
    else none
  | n + 1, .climb b, height, first, nNodes =>
    let first := leave first b
    match ((w.children (w.parent b)).dropWhile (· ≠ b)).tail, w.parent b with
    | c :: _, _ => walk n (.visit c) height first nNodes
    | [], some p => walk n (.climb p) (height - 1) first nNodes
    | [], none => some nNodes

/-- The nodes of a subtree of depth `n`, as they are met. -/
def preorder : Nat → ι → List ι
  | 0, b => [b]
  | n + 1, b => b :: (w.children (some b)).flatMap (preorder n)

section

variable {w} {root : ι} {c b x : ι}

theorem mem_children {p : Option ι} : c ∈ w.children p ↔ c ∈ w.nodes ∧ w.parent c = p := by
  rw [children, mem_filter, decide_eq_true_eq]

omit [DecidableEq ι] in
theorem lineage_eq_cons (b : ι) :
    lineage w.parent w.height b = b :: (lineage w.parent w.height b).tail := by
  unfold lineage
  cases w.height b <;> rfl

omit [DecidableEq ι] in
/-- A descendant is below one of the children. -/
theorem exists_child (hanc : Anc w.parent b x) (hne : x ≠ b) :
    ∃ c, w.parent c = some b ∧ Anc w.parent c x := by
  rcases Relation.ReflTransGen.cases_tail hanc with heq | ⟨c, hxc, hc⟩
  · exact absurd heq.symm hne
  · exact ⟨c, hc, hxc⟩

/-! ## What is remembered -/

omit [DecidableEq ι] in
theorem enter_firstsAbove (b : ι) : w.enter (w.firstsAbove b) b = w.firsts b := by
  funext k
  unfold enter firsts firstsAbove
  rw [lineage_eq_cons b, reverse_cons, find?_append, tail_cons]
  cases (lineage w.parent w.height b).tail.reverse.find? (w.marked k) with
  | none =>
    rw [isNone_none, Bool.true_and, none_or]
    cases hmark : w.marked k b with
    | true => rw [if_pos rfl, find?_cons_of_pos hmark]
    | false => rw [if_neg Bool.false_ne_true, find?_cons_of_neg (by simp [hmark]), find?_nil]
  | some x => rfl

variable (h : Rooted w.parent w.height w.nodes root)

include h

theorem leave_firsts (hb : b ∈ w.nodes) : leave (w.firsts b) b = w.firstsAbove b := by
  have hnodup := h.nodup_lineage hb
  funext k
  unfold leave firsts firstsAbove
  rw [lineage_eq_cons b] at hnodup
  rw [lineage_eq_cons b, reverse_cons, find?_append, tail_cons]
  cases hfind : (lineage w.parent w.height b).tail.reverse.find? (w.marked k) with
  | none =>
    rw [none_or]
    cases hmark : w.marked k b with
    | true => rw [find?_cons_of_pos hmark, if_pos rfl]
    | false =>
      rw [find?_cons_of_neg (by simp [hmark]), find?_nil]
      rfl
  | some x =>
    -- an ancestor is another node
    have hx : x ∈ (lineage w.parent w.height b).tail := mem_reverse.mp (mem_of_find?_eq_some hfind)
    have hne : x ≠ b := fun heq => (nodup_cons.mp hnodup).1 (heq ▸ hx)
    rw [some_or, if_neg fun heq => hne (some.inj heq)]

omit [DecidableEq ι] in
theorem firstsAbove_of_parent {p : ι} (hb : b ∈ w.nodes) (hp : w.parent b = some p) :
    w.firstsAbove b = w.firsts p := by
  funext k
  rw [firstsAbove, firsts, h.lineage_of_parent hb hp, tail_cons]

omit [DecidableEq ι] in
theorem firstsAbove_root : w.firstsAbove root = fun _ => none := by
  funext k
  rw [firstsAbove, h.lineage_root]
  rfl

/-! ## The order of the nodes

The order in which the nodes of a subtree are met (`mem_preorder`, `nodup_preorder`).
-/

omit [DecidableEq ι] in
/-- The subtree of a child is one less deep. -/
theorem depth_child {n : Nat} (hc : c ∈ w.nodes) (hparent : w.parent c = some b)
    (hdepth : ∀ x ∈ w.nodes, Anc w.parent b x → w.height x ≤ w.height b + (n + 1)) :
    ∀ x ∈ w.nodes, Anc w.parent c x → w.height x ≤ w.height c + n := by
  intro x hx hanc
  have h1 := hdepth x hx ((Lineage.Anc.of_parent hparent).trans hanc)
  have h2 := h.height_parent hc hparent
  omega

theorem mem_preorder : ∀ n b, b ∈ w.nodes →
    (∀ x ∈ w.nodes, Anc w.parent b x → w.height x ≤ w.height b + n) →
    (x ∈ w.preorder n b ↔ x ∈ w.nodes ∧ Anc w.parent b x) := by
  intro n
  induction n with
  | zero =>
    intro b hb hdepth
    rw [preorder, mem_singleton]
    constructor
    · rintro rfl
      exact ⟨hb, .refl x⟩
    · rintro ⟨hx, hanc⟩
      exact (h.eq_of_anc_of_height_le hx hanc (hdepth x hx hanc)).symm
  | succ n ih =>
    intro b hb hdepth
    rw [preorder, mem_cons, mem_flatMap]
    constructor
    · rintro (rfl | ⟨c, hc, hx⟩)
      · exact ⟨hb, .refl x⟩
      · obtain ⟨hcm, hparent⟩ := mem_children.mp hc
        obtain ⟨hxm, hanc⟩ := (ih c hcm (depth_child h hcm hparent hdepth)).mp hx
        exact ⟨hxm, (Lineage.Anc.of_parent hparent).trans hanc⟩
    · rintro ⟨hx, hanc⟩
      by_cases hxb : x = b
      · exact .inl hxb
      · obtain ⟨c, hparent, hcx⟩ := exists_child hanc hxb
        have hcm := h.mem_of_anc hx hcx
        exact .inr ⟨c, mem_children.mpr ⟨hcm, hparent⟩,
          (ih c hcm (depth_child h hcm hparent hdepth)).mpr ⟨hx, hcx⟩⟩

theorem nodup_preorder (hnodes : w.nodes.Nodup) : ∀ n b, b ∈ w.nodes →
    (∀ x ∈ w.nodes, Anc w.parent b x → w.height x ≤ w.height b + n) → (w.preorder n b).Nodup := by
  intro n
  induction n with
  | zero =>
    intro b _ _
    exact nodup_singleton b
  | succ n ih =>
    intro b hb hdepth
    have hmem : ∀ c ∈ w.children (some b), ∀ x ∈ w.preorder n c,
        w.parent c = some b ∧ c ∈ w.nodes ∧ x ∈ w.nodes ∧ Anc w.parent c x := by
      intro c hc x hx
      obtain ⟨hcm, hparent⟩ := mem_children.mp hc
      exact ⟨hparent, hcm, (mem_preorder h n c hcm (depth_child h hcm hparent hdepth)).mp hx⟩
    rw [preorder, nodup_cons, nodup_flatMap]
    refine ⟨fun hin => ?_, fun c hc => ?_, ?_⟩
    · obtain ⟨c, hc, hx⟩ := mem_flatMap.mp hin
      obtain ⟨hparent, hcm, hbm, hcb⟩ := hmem c hc b hx
      have h1 := h.height_le hbm hcb
      have h2 := h.height_parent hcm hparent
      omega
    · obtain ⟨hcm, hparent⟩ := mem_children.mp hc
      exact ih c hcm (depth_child h hcm hparent hdepth)
    · -- two children have no descendant in common
      refine (hnodes.filter _).imp_of_mem fun {c d} hc hd hne => ?_
      intro x hxc hxd
      obtain ⟨hpc, hcm, hxm, hcx⟩ := hmem c hc x hxc
      obtain ⟨hpd, hdm, -, hdx⟩ := hmem d hd x hxd
      have h1 := h.height_parent hcm hpc
      have h2 := h.height_parent hdm hpd
      exact hne (h.anc_unique hxm hcx hdx (by omega))

/-! ## The loop goes through the tree

A subtree is gone through and left as it was entered (`walk_visit`).
-/

/-- What follows the last node of a subtree that is met. -/
def Subtree (w : TreeWalk ι κ) (n : Nat) (b : ι) : Prop :=
  ∀ fuel nNodes,
    w.walk (fuel + 2 * (w.preorder n b).length) (.visit b) (w.height b) (w.firstsAbove b) nNodes =
      if w.Passed (w.preorder n b) then
        w.walk (fuel + 1) (.climb b) (w.height b) (w.firsts b) (nNodes + (w.preorder n b).length)
      else none

section

variable (hnodes : w.nodes.Nodup)
include hnodes

omit h in
/-- On the way up from a node comes its next sibling. -/
theorem dropWhile_children {p : Option ι} {front rest : List ι} {c : ι}
    (hsplit : w.children p = front ++ c :: rest) :
    ((w.children p).dropWhile (· ≠ c)).tail = rest := by
  have hnodup : (front ++ c :: rest).Nodup := hsplit ▸ hnodes.filter _
  have hfront : ∀ x ∈ front, decide (x ≠ c) = true := by
    intro x hx
    refine decide_eq_true fun heq => ?_
    exact (nodup_append.mp hnodup).2.2 x hx c mem_cons_self heq
  rw [hsplit, dropWhile_append_of_pos hfront, dropWhile_cons_of_neg (by simp), tail_cons]

/-- From the first of some siblings the loop comes up to their parent. -/
theorem walk_siblings {p : ι} {n : Nat} (hsubtree : ∀ c ∈ w.children (some p), w.Subtree n c) :
    ∀ rest front c, w.children (some p) = front ++ c :: rest → ∀ fuel nNodes,
      w.walk (fuel + 2 * ((c :: rest).flatMap (w.preorder n)).length) (.visit c) (w.height p + 1)
          (w.firsts p) nNodes = if w.Passed ((c :: rest).flatMap (w.preorder n)) then
          w.walk fuel (.climb p) (w.height p) (w.firsts p)
            (nNodes + ((c :: rest).flatMap (w.preorder n)).length) else none := by
  intro rest
  induction rest with
  | nil =>
    intro front c hsplit fuel nNodes
    have hc : c ∈ w.children (some p) := hsplit ▸ mem_append_right _ mem_cons_self
    obtain ⟨hcm, hparent⟩ := mem_children.mp hc
    have hfirst := firstsAbove_of_parent h hcm hparent
    have hheight := h.height_parent hcm hparent
    have hsub := hsubtree c hc fuel nNodes
    rw [hfirst, hheight] at hsub
    rw [flatMap_cons, flatMap_nil, append_nil, hsub]
    have hnext : ((w.children (w.parent c)).dropWhile (· ≠ c)).tail = [] := by
      rw [hparent]
      exact dropWhile_children hnodes hsplit
    rw [walk]
    rw [hnext, hparent, leave_firsts h hcm, hfirst]
    rfl
  | cons d rest ih =>
    intro front c hsplit fuel nNodes
    have hc : c ∈ w.children (some p) := hsplit ▸ mem_append_right _ mem_cons_self
    obtain ⟨hcm, hparent⟩ := mem_children.mp hc
    have hfirst := firstsAbove_of_parent h hcm hparent
    have hheight := h.height_parent hcm hparent
    set below := (d :: rest).flatMap (w.preorder n) with hbelow
    have hsub := hsubtree c hc (fuel + 2 * below.length) nNodes
    rw [hfirst, hheight] at hsub
    have hnext : ((w.children (w.parent c)).dropWhile (· ≠ c)).tail = d :: rest := by
      rw [hparent]
      exact dropWhile_children hnodes hsplit
    have hfuel : fuel + 2 * (w.preorder n c ++ below).length =
        fuel + 2 * below.length + 2 * (w.preorder n c).length := by
      rw [length_append]
      omega
    rw [flatMap_cons, ← hbelow, hfuel, hsub]
    have hclimb : w.walk (fuel + 2 * below.length + 1) (.climb c) (w.height p + 1) (w.firsts c)
        (nNodes + (w.preorder n c).length) =
        w.walk (fuel + 2 * below.length) (.visit d) (w.height p + 1) (w.firsts p)
          (nNodes + (w.preorder n c).length) := by
      rw [walk]
      rw [hnext, leave_firsts h hcm, hfirst]
    have hsplit' : w.children (some p) = (front ++ [c]) ++ d :: rest := by
      rw [hsplit, append_assoc, singleton_append]
    rw [hclimb, ih (front ++ [c]) d hsplit', length_append, Nat.add_assoc]
    -- the subtree of `c` and those of its siblings
    by_cases hpc : w.Passed (w.preorder n c)
    · rw [if_pos hpc]
      refine if_congr ?_ rfl rfl
      exact ⟨fun hrest x hx => (mem_append.mp hx).elim (hpc x) (hrest x),
        fun hall x hx => hall x (mem_append_right _ hx)⟩
    · rw [if_neg hpc, if_neg fun hall => hpc fun x hx => hall x (mem_append_left _ hx)]

theorem walk_visit : ∀ n b, b ∈ w.nodes →
    (∀ x ∈ w.nodes, Anc w.parent b x → w.height x ≤ w.height b + n) → w.Subtree n b := by
  have hstep : ∀ b nNodes fuel, w.walk (fuel + 1) (.visit b) (w.height b) (w.firstsAbove b) nNodes =
      if w.check b (w.firsts b) (w.height b) then
        match w.children (some b) with
        | c :: _ => w.walk fuel (.visit c) (w.height b + 1) (w.firsts b) (nNodes + 1)
        | [] => w.walk fuel (.climb b) (w.height b) (w.firsts b) (nNodes + 1)
      else none := by
    intro b nNodes fuel
    rw [walk, enter_firstsAbove]
  intro n
  induction n with
  | zero =>
    intro b hb hdepth fuel nNodes
    -- no node is below this one
    have hleaf : w.children (some b) = [] := by
      refine eq_nil_iff_forall_not_mem.mpr fun c hc => ?_
      obtain ⟨hcm, hparent⟩ := mem_children.mp hc
      have h1 := hdepth c hcm (.of_parent hparent)
      have h2 := h.height_parent hcm hparent
      omega
    show w.walk (fuel + 1 + 1) _ _ _ _ = _
    rw [hstep, hleaf]
    simp [Passed, preorder]
  | succ n ih =>
    intro b hb hdepth fuel nNodes
    have hsubtree : ∀ c ∈ w.children (some b), w.Subtree n c := by
      intro c hc
      obtain ⟨hcm, hparent⟩ := mem_children.mp hc
      exact ih c hcm (depth_child h hcm hparent hdepth)
    set below := (w.children (some b)).flatMap (w.preorder n) with hbelow
    have hfuel : fuel + 2 * (w.preorder (n + 1) b).length = fuel + 1 + 2 * below.length + 1 := by
      rw [preorder, length_cons, ← hbelow]
      omega
    have hpassed : w.Passed (w.preorder (n + 1) b) ↔
        w.check b (w.firsts b) (w.height b) = true ∧ w.Passed below := by
      rw [preorder, Passed, forall_mem_cons]
      rfl
    rw [hfuel, hstep]
    have hrest : (match w.children (some b) with
        | c :: _ => w.walk (fuel + 1 + 2 * below.length) (.visit c) (w.height b + 1) (w.firsts b)
          (nNodes + 1)
        | [] => w.walk (fuel + 1 + 2 * below.length) (.climb b) (w.height b) (w.firsts b)
          (nNodes + 1)) =
        if w.Passed below then
          w.walk (fuel + 1) (.climb b) (w.height b) (w.firsts b) (nNodes + 1 + below.length)
        else none := by
      cases hchildren : w.children (some b) with
      | nil =>
        have hnil : below = [] := by rw [hbelow, hchildren, flatMap_nil]
        have hpassed : w.Passed [] := nofun
        rw [hnil, if_pos hpassed]
        rfl
      | cons c rest =>
        have hsib := walk_siblings h hnodes hsubtree rest [] c hchildren (fuel + 1) (nNodes + 1)
        rw [← hchildren] at hsib
        exact hsib
    rw [hrest]
    by_cases hcheck : w.check b (w.firsts b) (w.height b) = true
    · rw [if_pos hcheck]
      refine if_congr (by rw [hpassed]; exact (and_iff_right hcheck).symm) ?_ rfl
      rw [preorder, length_cons, Nat.add_assoc, Nat.add_comm 1]
    · rw [if_neg hcheck, if_neg fun hall => hcheck (hpassed.mp hall).1]

/-- Only the root has no parent. -/
theorem children_none : w.children none = [root] := by
  have hmem : ∀ x, x ∈ w.children none ↔ x ∈ [root] := by
    intro x
    rw [mem_children, mem_singleton]
    constructor
    · rintro ⟨hx, hparent⟩
      exact h.eq_root hx hparent
    · rintro rfl
      exact ⟨h.root_mem, h.root_parent⟩
  exact ((perm_ext_iff_of_nodup (hnodes.filter _) (nodup_singleton root)).mpr hmem).eq_singleton

/-- From the root, with enough rounds, the loop meets every node once. -/
theorem walk_root : w.walk (2 * w.nodes.length) (.visit root) 0 (fun _ => none) 0 =
      if w.Passed w.nodes then some w.nodes.length else none := by
  have hlt : ∀ x ∈ w.nodes, w.height x < w.nodes.length := fun x hx => h.height_lt hx
  have hdepth : ∀ x ∈ w.nodes, Anc w.parent root x → w.height x ≤ w.height root + w.nodes.length :=
    fun x hx _ => (hlt x hx).le.trans (Nat.le_add_left _ _)
  have hmem : ∀ x, x ∈ w.preorder w.nodes.length root ↔ x ∈ w.nodes := fun x =>
    (mem_preorder h _ root h.root_mem hdepth).trans ⟨fun hx => hx.1, fun hx => ⟨hx, h.root_anc hx⟩⟩
  have hperm : (w.preorder w.nodes.length root).Perm w.nodes :=
    (perm_ext_iff_of_nodup (nodup_preorder h hnodes _ root h.root_mem hdepth) hnodes).mpr hmem
  have hvisit := walk_visit h hnodes _ root h.root_mem hdepth 0 0
  rw [hperm.length_eq, firstsAbove_root h, h.root_height, Nat.zero_add, Nat.zero_add] at hvisit
  rw [hvisit]
  refine if_congr (forall_congr' fun x => by rw [hmem x]) ?_ rfl
  have hnext : ((w.children (w.parent root)).dropWhile (· ≠ root)).tail = [] := by
    rw [h.root_parent, children_none h hnodes, dropWhile_cons_of_neg (by simp), tail_cons]
  rw [walk]
  rw [hnext, h.root_parent]
  exact congrArg some (Nat.zero_add _)

end

end

end TreeWalk
