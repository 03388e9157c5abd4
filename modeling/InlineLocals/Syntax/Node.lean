import InlineLocals.Text.Range
import InlineLocals.Text.Names
import InlineLocals.Syntax.Kind

/-!
# Syntax — Node

Syntax trees.  A node has a kind, an id, a range, the leaves that it holds itself (tokens, names
and discards) and its child nodes in source order.  One shape serves every kind of node, so that
what holds of all nodes is shown by one induction; which children a node of a given kind has is
the business of the productions that build it (`Production`).

`Node.size` counts the nodes of a tree and is the measure of the walks over it;
`Node.preorder` lists them, each before its children.
-/

namespace InlineLocals

/-- Nodes and leaves are told apart by number. -/
abbrev NodeId := Nat

/-- What leaves and nodes have in common. -/
structure Info where
  kind : Kind
  id : NodeId
  range : Range
deriving DecidableEq

/-- A name as it stands at one place of a text. -/
structure Identifier where
  id : NodeId
  range : Range
  name : Name
deriving DecidableEq

/-- What a node holds besides its children. -/
inductive Leaf where
  | token (info : Info)
  | identifier (identifier : Identifier)
  /-- A placeholder in the position of a declared name. -/
  | discard (id : NodeId) (range : Range)
deriving DecidableEq

namespace Leaf

/-- The kind, the id and the range of a leaf. -/
def info : Leaf → Info
  | token info => info
  | identifier i => ⟨.identifierToken, i.id, i.range⟩
  | discard id range => ⟨.discardDesignation, id, range⟩

def range (leaf : Leaf) : Range := leaf.info.range

/-- The identifier that the leaf is, if it is one. -/
def identifier? : Leaf → Option Identifier
  | identifier i => some i
  | _ => none

end Leaf

/-- Everything about a node but its children. -/
structure Label extends Info where
  leaves : List Leaf
  /-- The number of dimensions of an array type, and zero elsewhere. -/
  rank : Nat

/-- A node with its children in source order. -/
inductive Node where
  | mk (label : Label) (children : List Node)

namespace Node

def label : Node → Label
  | mk label _ => label

/-- The nodes directly below, in the order of the source. -/
def children : Node → List Node
  | mk _ children => children

def info (n : Node) : Info := n.label.toInfo

def kind (n : Node) : Kind := n.label.kind

def id (n : Node) : NodeId := n.label.id

def range (n : Node) : Range := n.label.range

def leaves (n : Node) : List Leaf := n.label.leaves

/-- The first name that the node itself holds. -/
def identifier? (n : Node) : Option Identifier := n.leaves.findSome? Leaf.identifier?

/-- The node's first child of a kind of types. -/
def type? (n : Node) : Option Node := n.children.find? (fun child => child.kind.isType)

/-- Puts `first` before the children of the node, which keeps its id and its range. -/
def withFirst (first : List Node) : Node → Node
  | mk label children => mk label (first ++ children)

/-- The node that is reached by going to a child by its place again and again. -/
def at? (n : Node) : List Nat → Option Node
  | [] => some n
  | i :: path =>
    match n.children[i]? with
    | some child => child.at? path
    | none => none

/-! ### Size -/

mutual

/-- The number of nodes of the tree. -/
def size : Node → Nat
  | mk _ children => sizeAll children + 1

/-- The number of nodes of the trees of a list. -/
def sizeAll : List Node → Nat
  | [] => 0
  | n :: rest => n.size + sizeAll rest

end

@[simp]
theorem sizeAll_append (ns ms : List Node) : sizeAll (ns ++ ms) = sizeAll ns + sizeAll ms := by
  induction ns with
  | nil => simp [sizeAll]
  | cons n ns ih => simp [sizeAll, ih, Nat.add_assoc]

/-- A node counts itself and all that is below its children. -/
theorem size_eq (n : Node) : n.size = sizeAll n.children + 1 := by
  cases n; simp [size, children]

theorem size_le_sizeAll {n : Node} {ns : List Node} (h : n ∈ ns) : n.size ≤ sizeAll ns := by
  induction ns with
  | nil => simp at h
  | cons m ns ih =>
      rcases List.mem_cons.mp h with rfl | h
      · simp [sizeAll]
      · have := ih h
        simp only [sizeAll]
        omega

theorem size_pos (n : Node) : 0 < n.size := by rw [size_eq n]; omega

/-- Fewer nodes are no larger. -/
theorem sizeAll_le_of_sublist {ns ms : List Node} (h : ns.Sublist ms) :
    sizeAll ns ≤ sizeAll ms := by
  induction h with
  | slnil => exact Nat.le_refl _
  | cons m _ ih => simp only [sizeAll]; omega
  | cons_cons m _ ih => simp only [sizeAll]; omega

/-- A list stays as small as it is when its nodes are left out or replaced by smaller ones. -/
theorem sizeAll_filterMap_le {f : Node → Option Node} {ns : List Node}
    (h : ∀ n m, n ∈ ns → f n = some m → m.size ≤ n.size) :
    sizeAll (ns.filterMap f) ≤ sizeAll ns := by
  induction ns with
  | nil => exact Nat.le_refl _
  | cons n ns ih =>
      have ih := ih fun k m hk => h k m (List.mem_cons_of_mem n hk)
      rw [List.filterMap_cons]
      split
      · simp only [sizeAll]; omega
      · next m hm =>
          have := h n m List.mem_cons_self hm
          simp only [sizeAll]
          omega

/-- A child is smaller than its parent, so walks down a tree end. -/
theorem size_lt_of_mem_children {n child : Node} (h : child ∈ n.children) :
    child.size < n.size := by
  have := size_le_sizeAll h
  rw [size_eq n]
  omega

/-- What holds of a node as soon as it holds of its children holds of every node. -/
theorem induction {P : Node → Prop}
    (step : ∀ n : Node, (∀ child ∈ n.children, P child) → P n) (n : Node) : P n := by
  have bounded : ∀ (k : Nat) (m : Node), m.size ≤ k → P m := by
    intro k
    induction k with
    | zero => intro m hm; have := m.size_pos; omega
    | succ k ih =>
        intro m hm
        refine step m fun child hc => ih child ?_
        have := size_lt_of_mem_children hc
        omega
  exact bounded n.size n (Nat.le_refl _)

/-! ### Preorder -/

/-- Lists the nodes of the trees of a list, each before its children, after those of `seen`. -/
def preorderAll (seen : Array Node) : List Node → Array Node
  | [] => seen
  | n :: rest => preorderAll (seen.push n) (n.children ++ rest)
termination_by work => sizeAll work
decreasing_by simp [sizeAll, size_eq n]

/-- The nodes of the tree, each before its children and the children in source order. -/
def preorder (n : Node) : Array Node := preorderAll #[] [n]

end Node

/-- What a production makes and takes: a leaf or a node. -/
inductive Piece where
  | leaf (leaf : Leaf)
  | node (node : Node)

namespace Piece

def info : Piece → Info
  | leaf l => l.info
  | node n => n.info

def range (p : Piece) : Range := p.info.range

/-- The leaf that the piece is, if it is one. -/
def leaf? : Piece → Option Leaf
  | leaf l => some l
  | node _ => none

/-- The node that the piece is, if it is one. -/
def node? : Piece → Option Node
  | leaf _ => none
  | node n => some n

end Piece

end InlineLocals
