import InlineLocals.Syntax.Tree
import InlineLocals.Proofs.Syntax.Identity

/-!
# Syntax — Parent

The table of parents is exact.  It is filled with the id of every child of every node of a tree.
Ids are spent once, so the entry of a node can only come from the node that has it as a child, and
`parent?_ofRoot_eq_some_iff` reads the table as a fact about the tree: the parent of `x` is the
node at or below the root with `x` among its children.  The node `x` may lie anywhere in the
workshop, also outside of the tree.
-/

namespace InlineLocals

namespace Node

/-- In the tree below `root`, `p` is the parent of `n`. -/
def ParentIn (root p n : Node) : Prop := p.Within root ∧ n ∈ p.children

/-- The root of a tree has no parent in it. -/
theorem not_parentIn_self (root p : Node) : ¬ root.ParentIn p root := fun h =>
  Nat.lt_irrefl _ (Nat.lt_of_lt_of_le (size_lt_of_mem_children h.2) h.1.size_le)

/-- What lies within the nodes of a list are these nodes and the children of what lies within. -/
theorem perm_flatMap_nodes {ns : List Node}
    (h : ∀ n ∈ ns, n.nodes.Perm (n :: n.nodes.flatMap children)) :
    (ns.flatMap nodes).Perm (ns ++ (ns.flatMap nodes).flatMap children) := by
  have hself : ns.flatMap (fun n => [n]) = ns := List.flatMap_singleton' ns
  have hsplit := List.flatMap_append_perm ns (fun n => [n]) fun n => n.nodes.flatMap children
  rw [hself, ← List.flatMap_assoc] at hsplit
  exact (List.Perm.flatMap_left ns h).trans hsplit.symm

/-- The nodes of a tree are its root and the children of its nodes. -/
theorem perm_nodes (n : Node) : n.nodes.Perm (n :: n.nodes.flatMap children) := by
  induction n using Node.induction with
  | step n ih =>
      rw [nodes_eq, List.flatMap_cons]
      exact .cons n (perm_flatMap_nodes ih)

end Node

/-- A node that a workshop holds is the child of one node only. -/
theorem Workshop.Holds.eq_of_mem_children {forms : List Form} {w : Workshop} {m m' x : Node}
    (built : ofForms forms = .ok w) (hm : w.Holds m) (hm' : w.Holds m') (h : x ∈ m.children)
    (h' : x ∈ m'.children) : m = m' := by
  have hperm := Node.perm_flatMap_nodes fun n (_ : n ∈ w.pieces.filterMap Piece.node?) =>
    n.perm_nodes
  have hd : (w.nodes.flatMap Node.children).Nodup :=
    (hperm.nodup_iff.mp (.of_map _ (nodup_map_id_nodes built))).of_append_right
  exact eq_of_nodup_flatMap hd (mem_nodes.mpr hm) (mem_nodes.mpr hm') h h'

namespace Tree

/-! ### What the table of parents holds -/

/-- One node records itself for its children, and leaves the other entries alone. -/
theorem getElem?_recordChildren (parents : Std.HashMap NodeId Node) (n : Node) (k : NodeId) :
    (recordChildren parents n)[k]? =
      if k ∈ n.children.map Node.id then some n else parents[k]? := by
  unfold recordChildren
  generalize n.children = ns
  induction ns generalizing parents with
  | nil => rfl
  | cons child ns ih =>
      rw [List.foldl_cons, ih, Std.HashMap.getElem?_insert, List.map_cons]
      by_cases hc : k ∈ ns.map Node.id
      · rw [if_pos hc, if_pos (List.mem_cons_of_mem _ hc)]
      · rw [if_neg hc]
        by_cases he : child.id = k
        · rw [if_pos (beq_iff_eq.mpr he), if_pos (he ▸ List.mem_cons_self)]
        · rw [if_neg (by simpa using he), if_neg]
          exact fun h => (List.mem_cons.mp h).elim (fun e => he e.symm) hc

/-- A parent in the table is one of the nodes that were recorded. -/
theorem mem_of_getElem?_foldl {k : NodeId} {m : Node} : ∀ (ns : List Node)
    {parents : Std.HashMap NodeId Node}, (ns.foldl recordChildren parents)[k]? = some m →
      (m ∈ ns ∧ k ∈ m.children.map Node.id) ∨ parents[k]? = some m
  | [], _, h => .inr h
  | n :: ns, parents, h => by
      rcases mem_of_getElem?_foldl ns h with ⟨hm, hk⟩ | h
      · exact .inl ⟨List.mem_cons_of_mem _ hm, hk⟩
      · rw [getElem?_recordChildren] at h
        split at h
        · next hk =>
          cases h
          exact .inl ⟨List.mem_cons_self, hk⟩
        · exact .inr h

/-- Every child of a recorded node has a parent in the table. -/
theorem isSome_getElem?_foldl {k : NodeId} : ∀ (ns : List Node)
    {parents : Std.HashMap NodeId Node},
    ((∃ m ∈ ns, k ∈ m.children.map Node.id) ∨ parents[k]?.isSome) →
      (ns.foldl recordChildren parents)[k]?.isSome
  | [], _, h => by
      rcases h with ⟨m, hm, -⟩ | h
      · cases hm
      · exact h
  | n :: ns, parents, h => by
      refine isSome_getElem?_foldl ns ?_
      rw [getElem?_recordChildren]
      rcases h with ⟨m, hm, hk⟩ | h
      · rcases List.mem_cons.mp hm with rfl | hm
        · exact .inr (by rw [if_pos hk]; rfl)
        · exact .inl ⟨m, hm, hk⟩
      · refine .inr ?_
        split
        · rfl
        · exact h

theorem parent?_ofRoot (root x : Node) :
    (ofRoot root).parent? x = (root.nodes.foldl recordChildren ∅)[x.id]? := by
  rw [parent?, ofRoot, ← Array.foldl_toList, Node.toList_preorder]

/-- **The parent of a node in a tree** is the node of the tree that has it among its children,
also when the node is not part of the tree. -/
theorem parent?_ofRoot_eq_some_iff {forms : List Form} {w : Workshop} {root x m : Node}
    (built : Workshop.ofForms forms = .ok w) (hr : w.Holds root) (hx : w.Holds x) :
    (ofRoot root).parent? x = some m ↔ root.ParentIn m x := by
  -- The index knows ids only; in a workshop the id of a child is that of no other node.
  have sound {p : Node} (h : (ofRoot root).parent? x = some p) : root.ParentIn p x := by
    rw [parent?_ofRoot] at h
    rcases mem_of_getElem?_foldl root.nodes h with ⟨hp, hk⟩ | h
    · have hw := Node.mem_nodes.mp hp
      obtain ⟨child, hc, hid⟩ := List.mem_map.mp hk
      have hheld := (hr.within hw).child hc
      rw [hheld.eq_of_id_eq built hx hid] at hc
      exact ⟨hw, hc⟩
    · simp at h
  refine ⟨sound, fun h => ?_⟩
  have hsome : ((ofRoot root).parent? x).isSome := by
    rw [parent?_ofRoot]
    exact isSome_getElem?_foldl root.nodes
      (.inl ⟨m, Node.mem_nodes.mpr h.1, List.mem_map_of_mem h.2⟩)
  obtain ⟨p, hp⟩ := Option.isSome_iff_exists.mp hsome
  have hs := sound hp
  rw [hp, (hr.within hs.1).eq_of_mem_children built (hr.within h.1) hs.2 h.2]

end Tree

end InlineLocals
