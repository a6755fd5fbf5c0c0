import Mathlib.Logic.Relation
import Mathlib.Data.List.Nodup
import Mathlib.Data.List.Perm.Subperm
import Mathlib.Order.Nat

/-!
# Lineage — trees kept as parent pointers

Nodes that each point to their parent and carry their height. Nothing says in advance that following
the pointers comes to an end; `Rooted` does, for the nodes of a list: one of them has no parent and
height zero, and every other one has a parent in the list, one lower.

* `Rooted.induction` — what passes from a parent to its children holds for all nodes.
-/

namespace Lineage

open List Option

variable {ι : Type}

/-- `a` is `b` or one of its ancestors. -/
def Anc (parent : ι → Option ι) (a b : ι) : Prop :=
  Relation.ReflTransGen (fun x y => parent x = some y) b a

section

variable {parent : ι → Option ι} {a b c p : ι}

@[refl]
theorem Anc.refl (b : ι) : Anc parent b b := Relation.ReflTransGen.refl

theorem Anc.trans (hab : Anc parent a b) (hbc : Anc parent b c) : Anc parent a c :=
  Relation.ReflTransGen.trans hbc hab

theorem Anc.of_parent (h : parent b = some a) : Anc parent a b := Relation.ReflTransGen.single h

theorem anc_iff : Anc parent a b ↔ a = b ∨ ∃ p, parent b = some p ∧ Anc parent a p := by
  rw [Anc, Relation.ReflTransGen.cases_head_iff]
  exact or_congr_left eq_comm

theorem anc_iff_of_parent (h : parent b = some p) : Anc parent a b ↔ a = b ∨ Anc parent a p := by
  rw [anc_iff]
  constructor
  · rintro (heq | ⟨p', hp', hanc⟩)
    · exact .inl heq
    · rw [h] at hp'
      exact .inr (some.inj hp' ▸ hanc)
  · rintro (heq | hanc)
    · exact .inl heq
    · exact .inr ⟨p, h, hanc⟩

theorem anc_iff_of_none (h : parent b = none) : Anc parent a b ↔ a = b := by
  rw [anc_iff]
  constructor
  · rintro (heq | ⟨p, hp, -⟩)
    · exact heq
    · rw [h] at hp
      cases hp
  · exact .inl

/-- Of two ancestors of one node, one is an ancestor of the other. -/
theorem Anc.total (ha : Anc parent a c) (hb : Anc parent b c) : Anc parent a b ∨ Anc parent b a := by
  have hunique : Relator.RightUnique (fun x y => parent x = some y) := by
    intro x y z hy hz
    exact some.inj (hy.symm.trans hz)
  exact (Relation.ReflTransGen.total_of_right_unique hunique ha hb).symm

end

section

variable (parent : ι → Option ι) (height : ι → Nat)

/-- The nodes form one tree: parents are listed, and one lower. -/
structure Rooted (nodes : List ι) (root : ι) : Prop where
  root_mem : root ∈ nodes
  root_parent : parent root = none
  root_height : height root = 0
  exists_parent : ∀ b ∈ nodes, b ≠ root → ∃ p ∈ nodes, parent b = some p ∧ height b = height p + 1

/-- The nodes a loop over the parent pointers meets in `n` steps from `b`. -/
def climb : Nat → ι → List ι
  | 0, b => [b]
  | n + 1, b => b :: (parent b).elim [] (climb n)

/-- From a node to the root. -/
def lineage (b : ι) : List ι :=
  climb parent (height b) b

end

namespace Rooted

variable {parent : ι → Option ι} {height : ι → Nat} {nodes : List ι} {root a b c p : ι}
  (h : Rooted parent height nodes root)

include h

theorem ne_root (hp : parent b = some p) : b ≠ root := by
  rintro rfl
  rw [h.root_parent] at hp
  cases hp

theorem mem_parent (hb : b ∈ nodes) (hp : parent b = some p) : p ∈ nodes := by
  obtain ⟨p', hmem, hp', -⟩ := h.exists_parent b hb (h.ne_root hp)
  rw [hp] at hp'
  exact some.inj hp' ▸ hmem

theorem height_parent (hb : b ∈ nodes) (hp : parent b = some p) : height b = height p + 1 := by
  obtain ⟨p', -, hp', hheight⟩ := h.exists_parent b hb (h.ne_root hp)
  rw [hp] at hp'
  exact some.inj hp' ▸ hheight

theorem eq_root (hb : b ∈ nodes) (hp : parent b = none) : b = root := by
  by_contra hne
  obtain ⟨p, -, hp', -⟩ := h.exists_parent b hb hne
  rw [hp] at hp'
  cases hp'

@[elab_as_elim]
theorem induction {motive : ι → Prop} (hroot : motive root)
    (hstep : ∀ b p, b ∈ nodes → p ∈ nodes → parent b = some p → motive p → motive b)
    (b : ι) (hb : b ∈ nodes) : motive b := by
  -- on the height, which the pointers lower
  suffices hall : ∀ n b, b ∈ nodes → height b = n → motive b from hall _ b hb rfl
  clear hb b
  intro n
  induction n with
  | zero =>
    intro b hb hheight
    by_cases hbr : b = root
    · exact hbr ▸ hroot
    · obtain ⟨p, -, -, hlt⟩ := h.exists_parent b hb hbr
      omega
  | succ n ih =>
    intro b hb hheight
    by_cases hbr : b = root
    · exact hbr ▸ hroot
    · obtain ⟨p, hp, hparent, hlt⟩ := h.exists_parent b hb hbr
      exact hstep b p hb hp hparent (ih p hp (by omega))

/-! ## Ancestors -/

theorem mem_of_anc (hb : b ∈ nodes) (hanc : Anc parent a b) : a ∈ nodes := by
  induction hanc with
  | refl => exact hb
  | tail _ hstep ih => exact h.mem_parent ih hstep

theorem root_anc (hb : b ∈ nodes) : Anc parent root b := by
  refine h.induction (.refl root) ?_ b hb
  intro b p _ _ hp ih
  exact ih.trans (.of_parent hp)

theorem height_le (hb : b ∈ nodes) (hanc : Anc parent a b) : height a ≤ height b := by
  induction hanc with
  | refl => exact le_rfl
  | tail hpath hstep ih =>
    have := h.height_parent (h.mem_of_anc hb hpath) hstep
    omega

theorem eq_of_anc_of_height_le (hb : b ∈ nodes) (hanc : Anc parent a b) (hle : height b ≤ height a) :
    a = b := by
  rcases anc_iff.mp hanc with heq | ⟨p, hp, hap⟩
  · exact heq
  · have h1 := h.height_parent hb hp
    have h2 := h.height_le (h.mem_parent hb hp) hap
    omega

/-- A node has one ancestor at each height. -/
theorem anc_unique (hc : c ∈ nodes) (ha : Anc parent a c) (hb : Anc parent b c)
    (heq : height a = height b) : a = b := by
  rcases Anc.total ha hb with hab | hba
  · exact h.eq_of_anc_of_height_le (h.mem_of_anc hc hb) hab heq.ge
  · exact (h.eq_of_anc_of_height_le (h.mem_of_anc hc ha) hba heq.le).symm

/-- Pointers that agree on the nodes have the same ancestors. -/
theorem anc_congr {parent' : ι → Option ι} (hagree : ∀ x ∈ nodes, parent' x = parent x)
    (hb : b ∈ nodes) : Anc parent' a b ↔ Anc parent a b := by
  refine h.induction ?_ ?_ b hb
  · rw [anc_iff_of_none h.root_parent,
      anc_iff_of_none ((hagree root h.root_mem).trans h.root_parent)]
  · intro b p hb _ hp ih
    rw [anc_iff_of_parent hp, anc_iff_of_parent ((hagree b hb).trans hp), ih]

/-! ## The lineage as a list

Written from the root on, it lists a node at the position of its height (`reverse_lineage_getElem?`).
-/

theorem lineage_root : lineage parent height root = [root] := by
  rw [lineage, h.root_height, climb]

section

variable (hb : b ∈ nodes)
include hb

theorem lineage_of_parent (hp : parent b = some p) :
    lineage parent height b = b :: lineage parent height p := by
  rw [lineage, h.height_parent hb hp, climb, hp, elim_some, lineage]

theorem mem_lineage : a ∈ lineage parent height b ↔ Anc parent a b := by
  refine h.induction ?_ ?_ b hb
  · rw [h.lineage_root, mem_singleton, anc_iff_of_none h.root_parent]
  · intro b p hb _ hp ih
    rw [h.lineage_of_parent hb hp, mem_cons, ih, anc_iff_of_parent hp]

theorem length_lineage : (lineage parent height b).length = height b + 1 := by
  refine h.induction ?_ ?_ b hb
  · rw [h.lineage_root, h.root_height, length_singleton]
  · intro b p hb _ hp ih
    rw [h.lineage_of_parent hb hp, length_cons, ih, h.height_parent hb hp]

theorem reverse_lineage_getElem? (n : Nat) :
    (lineage parent height b).reverse[n]? = some a ↔ Anc parent a b ∧ height a = n := by
  revert n
  refine h.induction ?_ ?_ b hb
  · intro n
    rw [h.lineage_root, anc_iff_of_none h.root_parent]
    cases n with
    | zero =>
      show some root = some a ↔ _
      rw [some.injEq]
      exact ⟨fun heq => ⟨heq.symm, heq ▸ h.root_height⟩, fun hpair => hpair.1.symm⟩
    | succ n =>
      have hheight := h.root_height
      refine iff_of_false (by simp) ?_
      rintro ⟨rfl, hsucc⟩
      omega
  · intro b p hb hpmem hp ih n
    have hlen : (lineage parent height p).reverse.length = height b := by
      rw [length_reverse, h.length_lineage hpmem, h.height_parent hb hp]
    rw [h.lineage_of_parent hb hp, reverse_cons]
    rcases lt_trichotomy n (height b) with hlt | heq | hgt
    · -- below the last entry it is the lineage of the parent
      rw [getElem?_append_left (by omega), ih, anc_iff_of_parent hp]
      refine ⟨fun hpair => ⟨.inr hpair.1, hpair.2⟩, ?_⟩
      rintro ⟨rfl | hanc, hheight⟩
      · omega
      · exact ⟨hanc, hheight⟩
    · subst heq
      rw [getElem?_append_right (by omega), hlen, Nat.sub_self]
      show some b = some a ↔ _
      rw [some.injEq]
      constructor
      · rintro rfl
        exact ⟨.refl _, rfl⟩
      · rintro ⟨hanc, hheight⟩
        exact (h.eq_of_anc_of_height_le hb hanc hheight.ge).symm
    · rw [getElem?_eq_none (by rw [length_append, hlen]; simp; omega)]
      refine iff_of_false (by simp) ?_
      rintro ⟨hanc, hheight⟩
      have := h.height_le hb hanc
      omega

/-- The root's side of a lineage is the lineage of an ancestor. -/
theorem take_reverse_lineage (hanc : Anc parent a b) :
    (lineage parent height b).reverse.take (height a + 1) = (lineage parent height a).reverse := by
  have ha := h.mem_of_anc hb hanc
  apply ext_getElem?
  intro n
  by_cases hn : n < height a + 1
  · rw [getElem?_take_of_lt hn]
    apply ext
    intro c
    rw [h.reverse_lineage_getElem? hb, h.reverse_lineage_getElem? ha]
    refine ⟨fun hc => ⟨?_, hc.2⟩, fun hc => ⟨hc.1.trans hanc, hc.2⟩⟩
    -- both are ancestors of `b`, and `c` is not above `a`
    rcases Anc.total hc.1 hanc with hca | hac
    · exact hca
    · have := h.height_le (h.mem_of_anc hb hc.1) hac
      have heq := h.eq_of_anc_of_height_le (h.mem_of_anc hb hc.1) hac (by omega)
      exact heq ▸ .refl a
  · rw [getElem?_eq_none (by rw [length_take]; omega),
      getElem?_eq_none (by rw [length_reverse, h.length_lineage ha]; omega)]

/-- A search along the pointers finds the highest ancestor with the property. -/
theorem find?_lineage {test : ι → Bool} (hroot : test root = true) :
    ∃ f, (lineage parent height b).find? test = some f ∧ Anc parent f b ∧ test f = true ∧
      ∀ a, Anc parent a b → test a = true → Anc parent a f := by
  refine h.induction ?_ ?_ b hb
  · rw [h.lineage_root]
    refine ⟨root, find?_cons_of_pos hroot, .refl root, hroot, fun a ha _ => ha⟩
  · intro b p hb _ hp ih
    rw [h.lineage_of_parent hb hp]
    by_cases htest : test b = true
    · exact ⟨b, find?_cons_of_pos htest, .refl b, htest, fun a ha _ => ha⟩
    · obtain ⟨f, hfind, hanc, hf, hmax⟩ := ih
      refine ⟨f, by rw [find?_cons_of_neg htest, hfind], hanc.trans (.of_parent hp), hf, ?_⟩
      intro a ha hta
      rcases (anc_iff_of_parent hp).mp ha with rfl | hap
      · exact absurd hta htest
      · exact hmax a hap hta

/-- What stands from an ancestor on is its own lineage. -/
theorem lineage_eq_of_append {l' : List ι} :
    ∀ l, lineage parent height b = l ++ a :: l' → lineage parent height a = a :: l' := by
  refine h.induction ?_ ?_ b hb
  · intro l heq
    rw [h.lineage_root] at heq
    cases l with
    | nil =>
      obtain ⟨rfl, htail⟩ := List.cons.inj heq
      rw [h.lineage_root, htail]
    | cons y l => simp at heq
  · intro b p hb _ hp ih l heq
    rw [h.lineage_of_parent hb hp] at heq
    cases l with
    | nil =>
      obtain ⟨rfl, htail⟩ := List.cons.inj heq
      rw [h.lineage_of_parent hb hp, htail]
    | cons y l => exact ih l (List.cons.inj heq).2

/-- What stands before an ancestor in a lineage descends from it. -/
theorem anc_of_lineage_eq {l' : List ι} (l) (heq : lineage parent height b = l ++ a :: l') :
    ∀ x ∈ l, Anc parent a x := by
  intro x hx
  obtain ⟨front, back, rfl⟩ := append_of_mem hx
  rw [append_assoc, cons_append] at heq
  have hxb : Anc parent x b := by
    rw [← h.mem_lineage hb, heq]
    exact mem_append_right _ mem_cons_self
  rw [← h.mem_lineage (h.mem_of_anc hb hxb), h.lineage_eq_of_append hb front heq]
  simp

theorem nodup_lineage : (lineage parent height b).Nodup := by
  refine h.induction ?_ ?_ b hb
  · rw [h.lineage_root]
    exact nodup_singleton root
  · intro b p hb hpmem hp ih
    rw [h.lineage_of_parent hb hp, nodup_cons]
    refine ⟨fun hmem => ?_, ih⟩
    have h1 := h.height_le hpmem ((h.mem_lineage hpmem).mp hmem)
    have h2 := h.height_parent hb hp
    omega

end

/-- Pointers and heights that agree on the nodes have the same lineages. -/
theorem lineage_congr {parent' : ι → Option ι} {height' : ι → Nat}
    (hparent : ∀ x ∈ nodes, parent' x = parent x) (hheight : ∀ x ∈ nodes, height' x = height x)
    (hb : b ∈ nodes) : lineage parent' height' b = lineage parent height b := by
  refine h.induction ?_ ?_ b hb
  · rw [h.lineage_root, lineage, hheight root h.root_mem, h.root_height, climb]
  · intro b p hb hpm hp ih
    rw [h.lineage_of_parent hb hp, ← ih, lineage, lineage, hheight b hb, hheight p hpm,
      h.height_parent hb hp, climb, hparent b hb, hp, elim_some]

/-- Nodes have fewer ancestors than there are nodes. -/
theorem height_lt (hb : b ∈ nodes) : height b < nodes.length := by
  have hsub : lineage parent height b ⊆ nodes := fun a ha => h.mem_of_anc hb ((h.mem_lineage hb).mp ha)
  have hle := ((h.nodup_lineage hb).subperm hsub).length_le
  rw [h.length_lineage hb] at hle
  omega

end Rooted

/-! ## The way down -/

/-- The nodes on the way from `a` down to `b`, without `a`. -/
inductive Path (parent : ι → Option ι) : ι → List ι → ι → Prop
  | nil (a : ι) : Path parent a [] a
  | cons {a b c : ι} {l : List ι} (hparent : parent b = some a) (hpath : Path parent b l c) :
    Path parent a (b :: l) c

namespace Path

variable {parent : ι → Option ι} {a b c : ι} {l : List ι}

theorem concat (hpath : Path parent a l b) (hparent : parent c = some b) :
    Path parent a (l ++ [c]) c := by
  induction hpath with
  | nil a => exact .cons hparent (.nil c)
  | cons hhead _ ih => exact .cons hhead (ih hparent)

theorem anc (hpath : Path parent a l b) : Anc parent a b := by
  induction hpath with
  | nil a => exact .refl a
  | cons hhead _ ih => exact (Anc.of_parent hhead).trans ih

end Path

/-- A lineage cut above an ancestor and turned around leads from the ancestor to the node. -/
theorem Rooted.path_takeWhile [DecidableEq ι] {parent : ι → Option ι} {height : ι → Nat}
    {nodes : List ι} {root a b : ι} (h : Rooted parent height nodes root) (hb : b ∈ nodes)
    (hanc : Anc parent a b) :
    Path parent a ((lineage parent height b).takeWhile fun x => height x ≠ height a).reverse b := by
  revert hanc
  refine h.induction ?_ ?_ b hb
  · intro hanc
    obtain rfl := (anc_iff_of_none h.root_parent).mp hanc
    rw [h.lineage_root, takeWhile_cons_of_neg (by simp), reverse_nil]
    exact .nil a
  · intro b p hb hpmem hp ih hanc
    rw [h.lineage_of_parent hb hp]
    rcases (anc_iff_of_parent hp).mp hanc with rfl | hap
    · rw [takeWhile_cons_of_neg (by simp), reverse_nil]
      exact .nil a
    · have h1 := h.height_le hpmem hap
      have h2 := h.height_parent hb hp
      rw [takeWhile_cons_of_pos (by simp only [decide_eq_true_eq]; omega), reverse_cons]
      exact (ih hap).concat hp

end Lineage
