import InlineLocals.Declaration.Search

/-!
# Declaration — Chain

Chains of binary operators.  The search does not descend into a binary operator: it walks down the
left operands, keeps the right ones it passes, and searches what it has gathered
(`Node.chainOperands`).  Here this is compared with two other searches: the one that treats a
binary operator like any node and searches the left operand, then the right one
(`Search.visitPlainly`), and the one that lists all operands first, however they are nested
(`Node.operands`).

The walk keeps an invariant on the pending operands: to search what it has gathered is to search
the node it stands at, and then those that are pending (`Search.visitAll_chainOperands`).
-/

namespace InlineLocals

namespace Node

/-! ### Operands -/

/-- The operands of the binary operators at the top of `n`, from left to right and however they
are nested: no operand is itself a binary operator. -/
def operands : Node → List Node
  | mk label [left, right] =>
    if label.kind = .binaryExpression then
      left.operands ++ right.operands
    else
      [mk label [left, right]]
  | n => [n]

/-- The nodes searched within `n` when binary operators are searched like other nodes: the left
operand, then the right one. -/
def plainlySearched (n : Node) : List Node :=
  if n.kind = .binaryExpression then n.children else n.searched

theorem sizeAll_plainlySearched_lt (n : Node) : sizeAll n.plainlySearched < n.size := by
  unfold plainlySearched
  split
  · rw [size_eq n]; omega
  · exact sizeAll_searched_lt n

/-- The walk does not touch the pending operands. -/
theorem chainOperands_append (n : Node) (pending more : List Node) :
    n.chainOperands (pending ++ more) = n.chainOperands pending ++ more := by
  fun_induction chainOperands pending n with
  | case1 pending label left right h ih =>
      rw [chainOperands, if_pos h]
      exact ih
  | case2 pending label left right h => rw [chainOperands, if_neg h, List.cons_append]
  | case3 pending n h => rw [chainOperands, List.cons_append]; exact h

theorem searched_chain {label : Label} {left right : Node} (h : label.kind = .binaryExpression) :
    (mk label [left, right]).searched = (mk label [left, right]).chainOperands [] := by
  have hk : (mk label [left, right]).kind = .binaryExpression := h
  simp [searched, hk, children]

end Node

namespace Search

variable {σ S : Type}

/-! ### The walk -/

theorem report_binary (s : Search σ S) {n : Node} (h : n.kind = .binaryExpression) :
    s.report n = pure () := by
  simp [report, Node.site?, h]

theorem visit_eq_visitAll_chainOperands (s : Search σ S) (n : Node) :
    s.visit n = s.visitAll (n.chainOperands []) := by
  fun_cases Node.chainOperands [] n with
  | case1 label left right h =>
      have hr : s.report (.mk label [left, right]) = pure () := report_binary s h
      rw [visit_eq, Node.searched_chain h, hr, Node.chainOperands, if_pos h]
      simp
  | case2 | case3 =>
      rw [visitAll_cons, visitAll_nil]
      simp

/-- The invariant of the walk down the left operands: to search what it gathers from `n` on is to
search `n`, and then the pending operands. -/
theorem visitAll_chainOperands (s : Search σ S) (n : Node) (pending : List Node) :
    s.visitAll (n.chainOperands pending) = (do s.visit n; s.visitAll pending) := by
  rw [← List.nil_append pending, Node.chainOperands_append, visitAll_append,
    ← visit_eq_visitAll_chainOperands, List.nil_append]

/-! ### The plain recursion -/

mutual

/-- Searches a node, and a binary operator by its left operand and then its right one. -/
def visitPlainly (s : Search σ S) (n : Node) : Run σ S Unit := do
  s.visitAllPlainly n.plainlySearched
  s.report n
termination_by 2 * n.size
decreasing_by have := Node.sizeAll_plainlySearched_lt n; omega

/-- Searches the nodes of a list so, one after the other. -/
def visitAllPlainly (s : Search σ S) (ns : List Node) : Run σ S Unit := do
  match ns with
  | [] => pure ()
  | n :: rest =>
    s.visitPlainly n
    s.visitAllPlainly rest
termination_by 2 * Node.sizeAll ns + 1
decreasing_by all_goals have := Node.size_pos n; simp only [Node.sizeAll]; omega

end

/-- A binary operator is searched by its operands, the left one first. -/
theorem visit_binary (s : Search σ S) {n : Node} (h : n.kind = .binaryExpression) :
    s.visit n = s.visitAll n.children := by
  match n, h with
  | .mk label [left, right], h =>
      have hl : label.kind = .binaryExpression := h
      rw [visit_eq_visitAll_chainOperands, Node.chainOperands, if_pos hl, visitAll_chainOperands]
      exact (visitAll_cons s left [right]).symm
  | .mk label [], h | .mk label [_], h | .mk label (_ :: _ :: _ :: _), h =>
      rw [visit_eq, report_binary s h]
      simp [Node.searched, h, Node.children]

theorem visit_eq_visitAll_plainlySearched (s : Search σ S) (n : Node) :
    s.visit n = (do s.visitAll n.plainlySearched; s.report n) := by
  by_cases h : n.kind = .binaryExpression
  · rw [Node.plainlySearched, if_pos h, report_binary s h, visit_binary s h]
    simp
  · rw [Node.plainlySearched, if_neg h, visit_eq]

mutual

/-- The search is the plain recursion. -/
theorem visit_eq_visitPlainly (s : Search σ S) (n : Node) : s.visit n = s.visitPlainly n := by
  rw [visit_eq_visitAll_plainlySearched, visitPlainly,
    visitAll_eq_visitAllPlainly s n.plainlySearched]
termination_by 2 * n.size
decreasing_by have := Node.sizeAll_plainlySearched_lt n; omega

theorem visitAll_eq_visitAllPlainly (s : Search σ S) (ns : List Node) :
    s.visitAll ns = s.visitAllPlainly ns := by
  match ns with
  | [] => rw [visitAll_nil, visitAllPlainly]
  | n :: rest =>
      rw [visitAll_cons, visitAllPlainly, visit_eq_visitPlainly s n,
        visitAll_eq_visitAllPlainly s rest]
termination_by 2 * Node.sizeAll ns + 1
decreasing_by all_goals have := Node.size_pos n; simp only [Node.sizeAll]; omega

end

/-- The search is the search of the operands, from left to right. -/
theorem visit_eq_visitAll_operands (s : Search σ S) (n : Node) :
    s.visit n = s.visitAll n.operands := by
  fun_induction Node.operands n with
  | case1 label left right h ihl ihr =>
    have hv : s.visit (.mk label [left, right]) = s.visitAll [left, right] := visit_binary s h
    rw [hv, visitAll_append, ← ihl, ← ihr, visitAll_cons, visitAll_cons, visitAll_nil]
    simp
  | case2 => rw [visitAll_cons, visitAll_nil]; simp
  | case3 => rw [visitAll_cons, visitAll_nil]; simp

end Search

end InlineLocals
