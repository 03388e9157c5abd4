import InlineLocals.Syntax.Node
import Mathlib.Data.List.Basic

/-!
# Syntax — Path

Places in a tree.  A path goes from a node to a child by its place again and again
(`Node.at?`); a node lies within another when a path leads to it (`Node.Within`).  `Node.nodes`
lists the nodes within a node, and `toList_preorder` says that the worklist which makes the table
of parents visits them in that order.
-/

namespace InlineLocals

namespace Node

/-! ### Paths -/

@[simp]
theorem at?_nil (n : Node) : n.at? [] = some n := by
  simp [at?]

/-- A path goes through the child at its first place. -/
theorem at?_cons_eq_some_iff {n m : Node} {i : Nat} {path : List Nat} :
    n.at? (i :: path) = some m ↔
      ∃ child, n.children[i]? = some child ∧ child.at? path = some m := by
  rw [at?]
  cases n.children[i]? with
  | none => simp
  | some child => simp

/-- A path in two parts goes by the end of its first part. -/
theorem at?_append_eq_some_iff {m : Node} {q : List Nat} : ∀ {p : List Nat} {n : Node},
    n.at? (p ++ q) = some m ↔ ∃ k, n.at? p = some k ∧ k.at? q = some m
  | [], n => by simp
  | i :: p, n => by
      rw [List.cons_append, at?_cons_eq_some_iff]
      constructor
      · rintro ⟨child, hc, hm⟩
        obtain ⟨k, hk, hm⟩ := at?_append_eq_some_iff.mp hm
        exact ⟨k, at?_cons_eq_some_iff.mpr ⟨child, hc, hk⟩, hm⟩
      · rintro ⟨k, hk, hm⟩
        obtain ⟨child, hc, hk⟩ := at?_cons_eq_some_iff.mp hk
        exact ⟨child, hc, at?_append_eq_some_iff.mpr ⟨k, hk, hm⟩⟩

/-! ### Nodes at or below a node -/

/-- `m` is `n` or lies below it. -/
def Within (m n : Node) : Prop := ∃ path, n.at? path = some m

theorem Within.refl (n : Node) : n.Within n := ⟨[], at?_nil n⟩

/-- What lies within a part lies within the whole: the paths are put together. -/
theorem Within.trans {k m n : Node} (h₁ : k.Within m) (h₂ : m.Within n) : k.Within n := by
  obtain ⟨q, hq⟩ := h₁
  obtain ⟨p, hp⟩ := h₂
  exact ⟨p ++ q, at?_append_eq_some_iff.mpr ⟨m, hp, hq⟩⟩

/-- A child is one step away. -/
theorem within_of_mem_children {child n : Node} (h : child ∈ n.children) : child.Within n := by
  obtain ⟨i, hi⟩ := List.mem_iff_getElem?.mp h
  exact ⟨[i], at?_cons_eq_some_iff.mpr ⟨child, hi, at?_nil child⟩⟩

/-- Within a node lie the node itself and what lies within its children. -/
theorem within_iff {m n : Node} : m.Within n ↔ m = n ∨ ∃ child ∈ n.children, m.Within child := by
  constructor
  · rintro ⟨path, h⟩
    cases path with
    | nil =>
        rw [at?_nil] at h
        exact .inl (Option.some.inj h).symm
    | cons i path =>
        obtain ⟨child, hc, hm⟩ := at?_cons_eq_some_iff.mp h
        exact .inr ⟨child, List.mem_of_getElem? hc, path, hm⟩
  · rintro (rfl | ⟨child, hc, hm⟩)
    · exact .refl m
    · exact hm.trans (within_of_mem_children hc)

/-- A part is no larger than the whole. -/
theorem Within.size_le {m n : Node} (h : m.Within n) : m.size ≤ n.size := by
  induction n using Node.induction with
  | step n ih =>
      rcases within_iff.mp h with rfl | ⟨child, hc, hm⟩
      · exact Nat.le_refl _
      · exact Nat.le_trans (ih child hc hm) (Nat.le_of_lt (size_lt_of_mem_children hc))

/-! ### The nodes of a tree -/

mutual

/-- The nodes at or below a node, each before its children. -/
def nodes : Node → List Node
  | mk label children => mk label children :: nodesAll children

/-- The nodes at or below the nodes of a list. -/
def nodesAll : List Node → List Node
  | [] => []
  | n :: rest => n.nodes ++ nodesAll rest

end

theorem nodesAll_eq_flatMap : ∀ ns : List Node, nodesAll ns = ns.flatMap nodes
  | [] => rfl
  | n :: rest => by rw [nodesAll, nodesAll_eq_flatMap rest, List.flatMap_cons]

/-- A tree in preorder: its root, and then the trees of the children. -/
theorem nodes_eq (n : Node) : n.nodes = n :: n.children.flatMap nodes := by
  cases n
  rw [nodes, nodesAll_eq_flatMap, children]

/-- The nodes of a tree are those that paths lead to. -/
theorem mem_nodes {m n : Node} : m ∈ n.nodes ↔ m.Within n := by
  induction n using Node.induction with
  | step n ih =>
      rw [nodes_eq, List.mem_cons, List.mem_flatMap, within_iff]
      constructor
      · rintro (rfl | ⟨child, hc, hm⟩)
        · exact .inl rfl
        · exact .inr ⟨child, hc, (ih child hc).mp hm⟩
      · rintro (rfl | ⟨child, hc, hm⟩)
        · exact .inl rfl
        · exact .inr ⟨child, hc, (ih child hc).mpr hm⟩

theorem preorderAll_eq (seen : Array Node) (work : List Node) :
    preorderAll seen work = seen ++ (work.flatMap nodes).toArray := by
  fun_induction preorderAll seen work with
  | case1 seen => simp
  | case2 seen n rest ih => rw [ih, List.flatMap_cons, nodes_eq n]; simp

/-- The worklist visits the nodes of the tree in their order. -/
theorem toList_preorder (n : Node) : n.preorder.toList = n.nodes := by
  rw [preorder, preorderAll_eq]
  simp

end Node

end InlineLocals
