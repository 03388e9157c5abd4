import Std.Data.HashMap
import InlineLocals.Syntax.Node

/-!
# Syntax — Tree

A node taken as the root of a tree, with the way up from each node below it.  Nodes know only
their children, so the parent of every node is recorded once, by node id, when the tree is made.
A node that lies outside of the tree has no parent in it, and neither has the root.
-/

namespace InlineLocals

/-- A root with the parents of the nodes below it. -/
structure Tree where
  root : Node
  parents : Std.HashMap NodeId Node

namespace Tree

/-- Records `n` as the parent of each of its children. -/
def recordChildren (parents : Std.HashMap NodeId Node) (n : Node) : Std.HashMap NodeId Node :=
  n.children.foldl (fun parents child => parents.insert child.id n) parents

/-- The tree below a root. -/
def ofRoot (root : Node) : Tree where
  root := root
  parents := root.preorder.foldl recordChildren ∅

/-- The parent of a node in the tree. -/
def parent? (t : Tree) (n : Node) : Option Node := t.parents[n.id]?

/-- The number of nodes of the tree, the root included. -/
def nodeCount (t : Tree) : Nat := t.parents.size + 1

/-- At most `limit` nodes on the way up from `n`, nearest first. -/
def climb (t : Tree) : (limit : Nat) → (n : Node) → List Node
  | 0, _ => []
  | limit + 1, n =>
    match t.parent? n with
    | some p => p :: t.climb limit p
    | none => []

/-- The nodes from the parent of `n` up to the root.  No way up is longer than the tree has
nodes. -/
def ancestors (t : Tree) (n : Node) : List Node := t.climb t.nodeCount n

/-- A short account of the tree: the kind of its root and the number of its nodes. -/
def summary (t : Tree) : String :=
  s!"SyntaxTree \x7b root: {t.root.kind.name}, nodes: {t.nodeCount} \x7d"

end Tree

end InlineLocals
