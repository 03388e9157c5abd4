import InlineLocals.Syntax.Node

/-!
# Declaration — Site

The nodes that declare a variable inside an expression, and the parts of a node in which such
variables belong to the same scope as the node.

`Node.site?` says what a node declares itself.  `Node.searched` lists the nodes to be searched
for further declarations, in source order.  A declaration in any other part belongs to a scope
of its own, and is found when that scope is searched:

* of `if`, `while`, `do`, `switch` and `lock` statements, and of switch expressions, only the
  condition or the value that is examined is searched;
* of a section of a switch, only its labels with patterns;
* of the body of a query, only the sources that its joins draw on and the continuation;
* of an anonymous function, nothing.

All other nodes are searched in all their children.  The operands of a chain of binary operators
are listed at once, however long the chain is.
-/

namespace InlineLocals

/-- What a node declares. -/
inductive Site where
  /-- A variable bound by a pattern; `type` is absent when the pattern names none. -/
  | pattern (type : Option Node) (designation : Leaf) (position : Range)
  /-- A variable declared in an expression. -/
  | expression (type : Node) (designation : Leaf)

/-- The name that the site declares; a discard declares none. -/
def Site.identifier? : Site → Option Identifier
  | pattern _ designation _ => designation.identifier?
  | expression _ designation => designation.identifier?

namespace Node

/-- What the node itself declares, apart from its children. -/
def site? (n : Node) : Option Site :=
  match n.kind, n.type?, n.leaves with
  | .declarationPattern, type, [designation] => some (.pattern type designation n.range)
  | .varPattern, _, [designation] => some (.pattern none designation n.range)
  | .recursivePattern, type, [designation] => some (.pattern type designation n.range)
  | .declarationExpression, some type, [designation] => some (.expression type designation)
  | _, _, _ => none

/-- The operands of a left-nested chain of binary operators from left to right, before those that
are `pending`.  The walk goes down the left operands and keeps the right ones it passes. -/
def chainOperands (pending : List Node) : Node → List Node
  | mk label [left, right] =>
    if label.kind = .binaryExpression then
      left.chainOperands (right :: pending)
    else
      mk label [left, right] :: pending
  | n => n :: pending

/-- The expression that a join draws its elements from; the two keys stand after it. -/
def joinSource? (n : Node) : Option Node := n.children.reverse[2]?

/-- The parts of a node in which declarations belong to the scope of the node. -/
def searched (n : Node) : List Node :=
  match n.kind with
  | .ifStatement | .whileStatement | .switchStatement | .lockStatement | .switchExpression =>
    n.children.take 1
  | .doStatement => n.children.drop 1
  | .switchSection => n.children.filter (·.kind == .casePatternSwitchLabel)
  | .queryBody => n.children.filterMap fun child =>
    match child.kind with
    | .joinClause => child.joinSource?
    | .queryContinuation => some child
    | _ => none
  | .parenthesizedLambdaExpression | .simpleLambdaExpression | .anonymousMethodExpression => []
  | .binaryExpression => if n.children.length = 2 then n.chainOperands [] else n.children
  | _ => n.children

/-! ### What is searched is smaller -/

theorem sizeAll_chainOperands (n : Node) (pending : List Node) :
    sizeAll (n.chainOperands pending) ≤ n.size + sizeAll pending := by
  fun_induction chainOperands pending n with
  | case1 pending label left right h ih => simp [size, sizeAll] at ih ⊢; omega
  | case2 => simp [sizeAll]
  | case3 => simp [sizeAll]

/-- At a binary operator with two operands, the chain leaves the operator itself out. -/
theorem sizeAll_chainOperands_lt {n : Node} (hk : n.kind = .binaryExpression)
    (h : n.children.length = 2) : sizeAll (n.chainOperands []) < n.size := by
  match n, hk, h with
  | mk label [left, right], hk, _ =>
      rw [chainOperands, if_pos (show label.kind = .binaryExpression from hk)]
      have := sizeAll_chainOperands left [right]
      simp [size, sizeAll] at *
      omega

theorem joinSource?_mem {n source : Node} (h : n.joinSource? = some source) :
    source ∈ n.children :=
  List.mem_reverse.mp (List.mem_of_getElem? h)

/-- The nodes to be searched within `n` have fewer nodes together than `n`. -/
theorem sizeAll_searched_lt (n : Node) : sizeAll n.searched < n.size := by
  have whole : sizeAll n.children < n.size := by rw [size_eq n]; omega
  have part {ns : List Node} (h : ns.Sublist n.children) : sizeAll ns < n.size :=
    Nat.lt_of_le_of_lt (sizeAll_le_of_sublist h) whole
  unfold searched
  split
  · exact part (List.take_sublist 1 _)
  · exact part (List.take_sublist 1 _)
  · exact part (List.take_sublist 1 _)
  · exact part (List.take_sublist 1 _)
  · exact part (List.take_sublist 1 _)
  · exact part (List.drop_sublist 1 _)
  · exact part List.filter_sublist
  · refine Nat.lt_of_le_of_lt (sizeAll_filterMap_le fun child m _ hm => ?_) whole
    split at hm
    · exact Nat.le_of_lt (size_lt_of_mem_children (joinSource?_mem hm))
    · cases hm; exact Nat.le_refl _
    · cases hm
  · exact part (List.nil_sublist _)
  · exact part (List.nil_sublist _)
  · exact part (List.nil_sublist _)
  · next hk =>
      split
      · exact sizeAll_chainOperands_lt hk ‹_›
      · exact whole
  · exact whole

end Node

end InlineLocals
