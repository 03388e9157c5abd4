import InlineLocals.Declaration.Search

/-!
# Declaration — Lockstep

Two searches side by side.  Where a search goes is settled by the node it starts from: neither the
symbols found so far nor the factory have a say in it, only a report may end it.  So whatever
relation of runs holds of doing nothing and is kept by doing one thing after the other
(`Run.Linked`) holds of two searches as soon as it holds of their reports (`Linked.enter`).
-/

namespace InlineLocals

/-! ### Where a search begins -/

/-- What a search is asked for: the variables of a node, if there is one, or those of one expression
after the other. -/
inductive Entry where
  | node (start : Option Node)
  | list (expressions : List Node)

/-- Searches what is asked for. -/
def Search.enter {σ S : Type} (s : Search σ S) : Entry → Run σ S Unit
  | .node start => s.find start
  | .list expressions => s.findInList expressions

/-! ### Linked runs -/

variable {σ τ S T : Type}

/-- The relation of runs holds of doing nothing, and is kept by doing one thing after the other. -/
structure Run.Linked (R : Run σ S Unit → Run τ T Unit → Prop) : Prop where
  nothing : R (pure ()) (pure ())
  bind {x y : Run σ S Unit} {x' y' : Run τ T Unit} :
    R x x' → R y y' → R (do x; y) (do x'; y')

namespace Run.Linked

variable {R : Run σ S Unit → Run τ T Unit → Prop} (linked : Linked R)
include linked

theorem forM {α : Type} {f : α → Run σ S Unit} {g : α → Run τ T Unit} (h : ∀ a, R (f a) (g a)) :
    ∀ as : List α, R (as.forM f) (as.forM g)
  | [] => linked.nothing
  | a :: as => linked.bind (h a) (forM h as)

mutual

/-- Searches whose reports are related are related. -/
theorem visit {s : Search σ S} {s' : Search τ T} (h : ∀ n, R (s.report n) (s'.report n))
    (n : Node) : R (s.visit n) (s'.visit n) := by
  rw [Search.visit_eq, Search.visit_eq]
  exact linked.bind (visitAll h n.searched) (h n)
termination_by 2 * n.size
decreasing_by have := Node.sizeAll_searched_lt n; omega

theorem visitAll {s : Search σ S} {s' : Search τ T} (h : ∀ n, R (s.report n) (s'.report n))
    (ns : List Node) : R (s.visitAll ns) (s'.visitAll ns) := by
  match ns with
  | [] =>
      rw [Search.visitAll_nil, Search.visitAll_nil]
      exact linked.nothing
  | n :: rest =>
      rw [Search.visitAll_cons, Search.visitAll_cons]
      exact linked.bind (visit h n) (visitAll h rest)
termination_by 2 * Node.sizeAll ns + 1
decreasing_by all_goals have := Node.size_pos n; simp only [Node.sizeAll]; omega

end

/-- The search of a list tells no scope around, so there its reports are others than those of the
search of a node. -/
theorem enter {s : Search σ S} {s' : Search τ T} (h : ∀ n, R (s.report n) (s'.report n))
    (hlist : ∀ n, R (Search.report { s with enclosing := none } n)
      (Search.report { s' with enclosing := none } n)) :
    ∀ entry : Entry, R (s.enter entry) (s'.enter entry)
  | .node none => linked.nothing
  | .node (some n) => linked.visit h n
  | .list expressions => linked.visitAll hlist expressions

end Run.Linked

end InlineLocals
