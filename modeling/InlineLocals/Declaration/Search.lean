import InlineLocals.Declaration.Context
import InlineLocals.Declaration.Factory
import InlineLocals.Declaration.Site

/-!
# Declaration — Search

The search for variables declared inside expressions: `o is int x` and `M(out int x)`.  It
visits the searched parts of a node from left to right and then the node itself, so a variable
bound by a pattern as a whole comes after those bound inside of it.

Every variable found is turned into a symbol and appended to the symbols found before.  A
declaration expression outside of an argument list ends the search; what was found up to there
stays found.

`find` searches from one node, `findInList` from one expression after the other.
-/

namespace InlineLocals

/-- How far a search has come: the symbols found, in order, and the state of the factory. -/
structure Progress (σ S : Type) where
  found : Array S
  state : σ

/-- A search in progress.  An error ends it and keeps the progress. -/
abbrev Run (σ S : Type) := EStateM ContextError (Progress σ S)

/-- What stays the same during a search. -/
structure Search (σ S : Type) where
  tree : Tree
  factory : SymbolFactory σ S
  /-- The scope that the variables belong to. -/
  scope : ScopeId
  /-- The scope around it, which variables declared in arguments are told. -/
  enclosing : Option ScopeId

namespace Search

variable {σ S : Type}

/-- Appends the symbol that the factory makes. -/
def append (make : σ → S × σ) : Run σ S Unit :=
  modify fun progress => match progress with
    | ⟨found, state⟩ =>
      match make state with
      | (symbol, state) => ⟨found.push symbol, state⟩

/-- Reports what a node itself declares.  The place of a declaration expression is checked even
when it declares no name. -/
def report (s : Search σ S) (n : Node) : Run σ S Unit :=
  match n.site? with
  | none => pure ()
  | some (.pattern type designation position) =>
    match designation.identifier? with
    | some name => append (s.factory.patternVariable s.scope type name position)
    | none => pure ()
  | some (.expression type designation) =>
    match s.tree.declaringCall n with
    | .error e => throw e
    | .ok call =>
      match designation.identifier? with
      | some name => append (s.factory.outVariable s.scope s.enclosing type name call)
      | none => pure ()

mutual

/-- Searches a node. -/
def visit (s : Search σ S) (n : Node) : Run σ S Unit := do
  s.visitAll n.searched
  s.report n
termination_by 2 * n.size
decreasing_by have := Node.sizeAll_searched_lt n; omega

/-- Searches the nodes of a list, one after the other. -/
def visitAll (s : Search σ S) (ns : List Node) : Run σ S Unit := do
  match ns with
  | [] => pure ()
  | n :: rest =>
    s.visit n
    s.visitAll rest
termination_by 2 * Node.sizeAll ns + 1
decreasing_by all_goals have := Node.size_pos n; simp only [Node.sizeAll]; omega

end

theorem visit_eq (s : Search σ S) (n : Node) :
    s.visit n = (do s.visitAll n.searched; s.report n) := by
  rw [visit]

theorem visitAll_nil (s : Search σ S) : s.visitAll [] = pure () := by
  rw [visitAll]

theorem visitAll_cons (s : Search σ S) (n : Node) (ns : List Node) :
    s.visitAll (n :: ns) = (do s.visit n; s.visitAll ns) := by
  rw [visitAll]

theorem visitAll_append (s : Search σ S) (ns ms : List Node) :
    s.visitAll (ns ++ ms) = (do s.visitAll ns; s.visitAll ms) := by
  induction ns with
  | nil => simp [visitAll_nil]
  | cons n ns ih => simp [visitAll_cons, ih]

/-- Searches from a node, if there is one. -/
def find (s : Search σ S) : Option Node → Run σ S Unit
  | some n => s.visit n
  | none => pure ()

/-- Searches one expression after the other.  The expressions share a scope, and no scope around
it is told to the factory. -/
def findInList (s : Search σ S) (expressions : List Node) : Run σ S Unit :=
  visitAll { s with enclosing := none } expressions

end Search

end InlineLocals
