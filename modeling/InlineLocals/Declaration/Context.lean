import InlineLocals.Syntax.Tree

/-!
# Declaration — Context

Where a declaration expression may stand.  `out int x` declares a variable only as an argument in
the argument list of a call: an invocation, an object creation or a call to another constructor.
`Tree.declaringCall` climbs from the declaration to the call through the parents of the tree, and
stops with an error at the first node on the way that breaks this shape.
-/

namespace InlineLocals

/-- A declaration expression stands where none may stand. -/
structure ContextError where
  /-- The kind of the first node above the declaration that breaks the shape, or nothing when the
  tree ends before that. -/
  context : Option Kind
  /-- Where the declaration starts. -/
  pos : Nat
deriving DecidableEq

/-- The error in words. -/
def ContextError.message (e : ContextError) : String :=
  let context := match e.context with
    | some kind => s!"Some({kind.name})"
    | none => "None"
  s!"unexpected declaration expression context {context} at position {e.pos}"

namespace Tree

/-- The parent of a node, which must be of an accepted kind; `pos` is where the error points. -/
def expectParent (t : Tree) (pos : Nat) (accepts : Kind → Bool) (n : Node) :
    Except ContextError Node :=
  match t.parent? n with
  | some p => if accepts p.kind then .ok p else .error ⟨some p.kind, pos⟩
  | none => .error ⟨none, pos⟩

/-- The call in whose argument list a declaration expression stands. -/
def declaringCall (t : Tree) (declaration : Node) : Except ContextError Node := do
  let pos := declaration.range.pos
  let argument ← t.expectParent pos (· == .argument) declaration
  let list ← t.expectParent pos Kind.isArgumentList argument
  t.expectParent pos Kind.isCall list

end Tree

end InlineLocals
