import InlineLocals.Proofs.Syntax.Numbering
import InlineLocals.Proofs.Syntax.Parent
import Mathlib.Data.Set.Card

/-!
# Syntax — Navigation

The way up is the way down read backwards.  The lineage of a node lists what stands above it in a
tree, from its parent to the root, each with the one before it among its children
(`Node.Lineage`); it is told without the table of parents.  To ascend is to ask the table for the
parent again and again until there is none (`Tree.Ascends`).

Ids are spent once, so the table of parents has one entry for every node below the root
(`Tree.nodeCount_ofRoot`), and ids increase on the way up (`Node.Lineage.pairwise_id_lt`).  Hence
no lineage is longer than the table is large, every ascent ends, and it ends at the root of the
tree or where it starts (`Tree.navigates_ofRoot`).
-/

namespace InlineLocals

/-! ### Lineages -/

namespace Node

/-- The nodes of the list lead from above a node up to the root: each has the one before it among
its children. -/
inductive Lineage (root : Node) : Node → List Node → Prop where
  | root : Lineage root root []
  | child {n p : Node} {up : List Node} (h : Lineage root p up) (hc : n ∈ p.children) :
      Lineage root n (p :: up)

theorem Lineage.exists_of_at? {root : Node} : ∀ {path : List Nat} {n m : Node} {up : List Node},
    root.Lineage n up → n.at? path = some m → ∃ up', root.Lineage m up'
  | [], _, _, up, h, hm => by
      rw [at?_nil] at hm
      cases hm
      exact ⟨up, h⟩
  | _ :: _, _, _, _, h, hm => by
      obtain ⟨child, hc, hm⟩ := at?_cons_eq_some_iff.mp hm
      exact exists_of_at? (h.child (List.mem_of_getElem? hc)) hm

/-- Every node of a tree has a lineage. -/
theorem Within.exists_lineage {n root : Node} (h : n.Within root) : ∃ up, root.Lineage n up := by
  obtain ⟨path, hp⟩ := h
  exact Lineage.exists_of_at? .root hp

namespace Lineage

variable {root n : Node} {up : List Node}

/-- A lineage stays in the tree. -/
theorem within (h : root.Lineage n up) : ∀ m ∈ n :: up, m.Within root := by
  induction h with
  | root => exact List.forall_mem_singleton.mpr (.refl root)
  | child _ hc ih =>
      have hp := (List.forall_mem_cons.mp ih).1
      exact List.forall_mem_cons.mpr ⟨(within_of_mem_children hc).trans hp, ih⟩

/-- In a tree that is numbered from below, ids increase on the way up. -/
theorem pairwise_id_lt (h : root.Lineage n up) (hb : root.BottomUp) :
    (n :: up).Pairwise fun m p => m.id < p.id := by
  induction h with
  | root => exact List.pairwise_singleton _ _
  | @child n p up h hc ih =>
      have hp : p.Within root := h.within p List.mem_cons_self
      have hlt : n.id < p.id := (hb p hp).child n hc
      refine List.pairwise_cons.mpr ⟨List.forall_mem_cons.mpr ⟨hlt, fun m hm => ?_⟩, ih⟩
      exact Nat.lt_trans hlt ((List.pairwise_cons.mp ih).1 m hm)

/-- In such a tree a lineage has fewer nodes than the tree. -/
theorem length_lt (h : root.Lineage n up) (hb : root.BottomUp) :
    up.length < root.nodes.length := by
  have hnodup : (n :: up).Nodup := (h.pairwise_id_lt hb).imp fun hlt he => by
    rw [he] at hlt
    exact Nat.lt_irrefl _ hlt
  have hsub : n :: up ⊆ root.nodes := fun m hm => mem_nodes.mpr (h.within m hm)
  exact (List.subperm_of_subset hnodup hsub).length_le

end Lineage

/-- The nodes of a part of a tree stand together in the list of its nodes. -/
theorem Within.sublist_nodes {m n : Node} (h : m.Within n) : m.nodes.Sublist n.nodes := by
  induction n using Node.induction with
  | step n ih =>
      rcases within_iff.mp h with rfl | ⟨child, hc, hm⟩
      · exact .refl _
      · rw [nodes_eq n]
        refine ((ih child hc hm).trans ?_).cons n
        exact List.sublist_flatten_of_mem (List.mem_map_of_mem hc)

end Node

/-- No two nodes of a tree have one id. -/
theorem Workshop.Holds.nodup_map_id {forms : List Form} {w : Workshop} {n : Node}
    (built : ofForms forms = .ok w) (h : w.Holds n) : (n.nodes.map Node.id).Nodup := by
  obtain ⟨value, hv, hn⟩ := h
  refine (nodup_map_id_nodes built).sublist ?_
  refine (hn.sublist_nodes.trans ?_).map Node.id
  exact List.sublist_flatten_of_mem (List.mem_map_of_mem (Piece.mem_filterMap_node?.mpr hv))

namespace Tree

/-! ### The size of the table of parents -/

/-- The keys of the table are the ids of the children of the nodes. -/
theorem mem_foldl_recordChildren {ns : List Node} {k : NodeId} :
    k ∈ ns.foldl recordChildren ∅ ↔ k ∈ (ns.flatMap Node.children).map Node.id := by
  rw [Std.HashMap.mem_iff_isSome_getElem?, List.map_flatMap, List.mem_flatMap]
  constructor
  · intro h
    obtain ⟨m, hm⟩ := Option.isSome_iff_exists.mp h
    rcases mem_of_getElem?_foldl ns hm with hm | hm
    · exact ⟨m, hm⟩
    · simp at hm
  · exact fun h => isSome_getElem?_foldl ns (.inl h)

/-- **The count of a tree** is that of the nodes at or below its root. -/
theorem nodeCount_ofRoot {forms : List Form} {w : Workshop} {root : Node}
    (built : Workshop.ofForms forms = .ok w) (hr : w.Holds root) :
    (ofRoot root).nodeCount = root.nodes.length := by
  have hsize : (ofRoot root).parents.size = (root.nodes.foldl recordChildren ∅).size := by
    rw [ofRoot, ← Array.foldl_toList, Node.toList_preorder]
  have hids := (root.perm_nodes.map Node.id).nodup_iff.mp (hr.nodup_map_id built)
  have hkeys : (root.nodes.foldl recordChildren ∅).keys.Perm
      ((root.nodes.flatMap Node.children).map Node.id) := by
    refine (List.perm_ext_iff_of_nodup Std.HashMap.nodup_keys hids.of_cons).mpr fun k => ?_
    rw [Std.HashMap.mem_keys, mem_foldl_recordChildren]
  rw [nodeCount, hsize, ← Std.HashMap.length_keys, hkeys.length_eq, List.length_map,
    root.perm_nodes.length_eq, List.length_cons]

theorem ncard_within {forms : List Form} {w : Workshop} {root : Node}
    (built : Workshop.ofForms forms = .ok w) (hr : w.Holds root) :
    {m : Node | m.Within root}.ncard = root.nodes.length := by
  classical
  have hnodes : {m : Node | m.Within root} = (root.nodes.toFinset : Set Node) := by
    ext m
    simp [Node.mem_nodes]
  rw [hnodes, Set.ncard_coe_finset, List.toFinset_card_of_nodup ((hr.nodup_map_id built).of_map _)]

/-! ### Ascents -/

/-- From a node to its parent, again and again, the way leads over the nodes of the list and then
ends. -/
inductive Ascends (t : Tree) : Node → List Node → Prop where
  | top {n : Node} (h : t.parent? n = none) : Ascends t n []
  | up {n p : Node} {ns : List Node} (h : t.parent? n = some p) (rest : Ascends t p ns) :
      Ascends t n (p :: ns)

/-- A climb that is allowed enough nodes goes all the way. -/
theorem Ascends.climb_eq {t : Tree} {n : Node} {ns : List Node} (h : t.Ascends n ns) :
    ∀ {limit : Nat}, ns.length ≤ limit → t.climb limit n = ns := by
  induction h with
  | top h =>
      intro limit _
      cases limit with
      | zero => rfl
      | succ limit => rw [climb, h]
  | up h _ ih =>
      intro limit hl
      cases limit with
      | zero => exact absurd hl (Nat.not_succ_le_zero _)
      | succ limit =>
          rw [climb, h]
          exact congrArg _ (ih (Nat.le_of_succ_le_succ hl))

section

variable {forms : List Form} {w : Workshop} {root x : Node}
  (built : Workshop.ofForms forms = .ok w) (hr : w.Holds root)
include built hr

/-- The root and what lies outside of the tree have no parent in it. -/
theorem parent?_ofRoot_eq_none (hx : w.Holds x) (h : x = root ∨ ¬ x.Within root) :
    (ofRoot root).parent? x = none := by
  refine Option.eq_none_iff_forall_ne_some.mpr fun p hp => ?_
  have hparent := (parent?_ofRoot_eq_some_iff built hr hx).mp hp
  rcases h with rfl | h
  · exact Node.not_parentIn_self _ p hparent
  · exact h ((Node.within_of_mem_children hparent.2).trans hparent.1)

/-- The parents of the table lead up the lineage. -/
theorem ascends_of_lineage {up : List Node} (h : root.Lineage x up) :
    (ofRoot root).Ascends x up := by
  induction h with
  | root => exact .top (parent?_ofRoot_eq_none built hr hr (.inl rfl))
  | @child n p up h hc ih =>
      have hp : p.Within root := h.within p List.mem_cons_self
      have hn : w.Holds n := (hr.within hp).child hc
      exact .up ((parent?_ofRoot_eq_some_iff built hr hn).mpr ⟨hp, hc⟩) ih

theorem ancestors_eq_of_lineage {up : List Node} (h : root.Lineage x up) :
    (ofRoot root).ancestors x = up := by
  refine (ascends_of_lineage built hr h).climb_eq ?_
  rw [nodeCount_ofRoot built hr]
  exact Nat.le_of_lt (h.length_lt (hr.bottomUp built))

end

/-! ### The way up from a node -/

/-- What the tree tells about the way up from a node. -/
structure Navigates (t : Tree) (x : Node) : Prop where
  parent? : ∀ m, t.root.ParentIn m x → t.parent? x = some m
  parent?_eq_none : x = t.root ∨ ¬ x.Within t.root → t.parent? x = none
  nodeCount : t.nodeCount = {m : Node | m.Within t.root}.ncard
  /-- Going from parent to parent comes to an end after the ancestors. -/
  ascends : t.Ascends x (t.ancestors x)
  lineage : x.Within t.root → t.root.Lineage x (t.ancestors x)
  ancestors_eq_nil : ¬ x.Within t.root → t.ancestors x = []
  increasing : (x :: t.ancestors x).Pairwise fun m p => m.id < p.id

/-- **Parents invert children**, for every node that a workshop holds, in the tree or not. -/
theorem navigates_ofRoot {forms : List Form} {w : Workshop} {root x : Node}
    (built : Workshop.ofForms forms = .ok w) (hr : w.Holds root) (hx : w.Holds x) :
    (ofRoot root).Navigates x := by
  have hcount : (ofRoot root).nodeCount = {m : Node | m.Within root}.ncard :=
    (nodeCount_ofRoot built hr).trans (ncard_within built hr).symm
  have hparent (m : Node) : root.ParentIn m x → (ofRoot root).parent? x = some m :=
    (parent?_ofRoot_eq_some_iff built hr hx).mpr
  have hnone := parent?_ofRoot_eq_none built hr hx
  by_cases h : x.Within root
  · obtain ⟨up, hup⟩ := h.exists_lineage
    have hancestors := ancestors_eq_of_lineage built hr hup
    exact {
      parent? := hparent
      parent?_eq_none := hnone
      nodeCount := hcount
      ascends := hancestors ▸ ascends_of_lineage built hr hup
      lineage := fun _ => hancestors ▸ hup
      ancestors_eq_nil := fun hout => absurd h hout
      increasing := hancestors ▸ hup.pairwise_id_lt (hr.bottomUp built) }
  -- The index has no entry for a node that is not in the tree.
  · have hascends : (ofRoot root).Ascends x [] := .top (hnone (.inr h))
    have hancestors : (ofRoot root).ancestors x = [] := hascends.climb_eq (Nat.zero_le _)
    exact {
      parent? := hparent
      parent?_eq_none := hnone
      nodeCount := hcount
      ascends := hancestors ▸ hascends
      lineage := fun hin => absurd hin h
      ancestors_eq_nil := fun _ => hancestors
      increasing := hancestors ▸ List.pairwise_singleton _ x }

/-- In the tree of `!this` the way leads up from `this`; in that of its operand alone no way leads
up from the negation. -/
theorem navigates_sampleNegation :
    Workshop.ofForms sampleNegationForms = .ok sampleNegationWorkshop ∧
      sampleNegationWorkshop.Holds sampleNegation ∧ sampleNegationWorkshop.Holds sampleThis ∧
      (ofRoot sampleNegation).Navigates sampleThis ∧
      (ofRoot sampleThis).Navigates sampleNegation := by
  have built := ofForms_sampleNegationForms
  have hnegation : sampleNegationWorkshop.Holds sampleNegation :=
    ⟨_, List.mem_singleton_self _, .refl _⟩
  have hthis : sampleNegationWorkshop.Holds sampleThis :=
    hnegation.child (List.mem_singleton_self _)
  exact ⟨built, hnegation, hthis, navigates_ofRoot built hnegation hthis,
    navigates_ofRoot built hthis hnegation⟩

end Tree

end InlineLocals
