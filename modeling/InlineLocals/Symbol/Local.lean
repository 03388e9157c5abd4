import InlineLocals.Declaration.Factory

/-!
# Symbol — Local

Local variables as symbols.  A symbol remembers how its variable was declared, the scope it
belongs to and the nodes that declare it, these by id.  Symbols are numbered in the order in
which they are made, across all kinds of variables.
-/

namespace InlineLocals

/-- Symbols are told apart by number. -/
abbrev SymbolId := Nat

/-- How a local variable came to be declared. -/
inductive LocalKind where
  /-- In a declaration statement. -/
  | regularVariable
  /-- In a pattern: `is int x`. -/
  | patternVariable
  /-- In an argument: `M(out int x)`. -/
  | outVariable
deriving DecidableEq

/-- The written name of the kind. -/
def LocalKind.name : LocalKind → String
  | regularVariable => "RegularVariable"
  | patternVariable => "PatternVariable"
  | outVariable => "OutVariable"

/-- A local variable. -/
structure LocalSymbol where
  id : SymbolId
  name : Name
  kind : LocalKind
  /-- The scope that the variable belongs to. -/
  scope : ScopeId
  /-- For a variable declared in an argument, the scope around its own. -/
  enclosing : Option ScopeId
  /-- The node of the declared type, when the declaration names a type. -/
  type : Option NodeId
  /-- The variable is declared with `var`, or without a type. -/
  implicit : Bool
  /-- Where the declared name stands. -/
  range : Range
  /-- For a variable declared in an argument, the call that it is an argument of. -/
  declaringCall : Option NodeId
deriving DecidableEq

namespace LocalSymbol

/-- The type is the plain name `var`. -/
def isVar (names : Names) (type : Node) : Bool :=
  match type.kind, type.identifier? with
  | .identifierName, some i => names.isNamed i.name "var"
  | _, _ => false

/-- A type is `var` by the text of its name, whatever number the name has. -/
theorem isVar_iff {names : Names} {type : Node} : isVar names type = true ↔
    type.kind = .identifierName ∧
      type.identifier?.map (fun i => names.text? i.name) = some (some "var") := by
  unfold isVar
  split
  · next i hk hi => simp [hk, hi, Names.isNamed_iff]
  · next hne =>
    refine ⟨nofun, ?_⟩
    rintro ⟨hk, hi⟩
    obtain ⟨i, hi, -⟩ := Option.map_eq_some_iff.mp hi
    exact absurd hi (hne i hk)

/-- A variable of a declaration statement; the next symbol takes the next number. -/
def regular (names : Names) (scope : ScopeId) (type : Node) (i : Identifier) (next : SymbolId) :
    LocalSymbol × SymbolId :=
  ({ id := next, name := i.name, kind := .regularVariable, scope, enclosing := none,
     type := some type.id, implicit := isVar names type, range := i.range,
     declaringCall := none }, next + 1)

/-- Makes local symbols; the state is the number of the next one. -/
def factory (names : Names) : SymbolFactory SymbolId LocalSymbol where
  patternVariable scope type i _ next :=
    ({ id := next, name := i.name, kind := .patternVariable, scope, enclosing := none,
       type := type.map Node.id, implicit := (type.map (isVar names)).getD true,
       range := i.range, declaringCall := none }, next + 1)
  outVariable scope enclosing type i call next :=
    ({ id := next, name := i.name, kind := .outVariable, scope, enclosing,
       type := some type.id, implicit := isVar names type, range := i.range,
       declaringCall := some call.id }, next + 1)

end LocalSymbol

end InlineLocals
