import InlineLocals.Syntax.Node

/-!
# Declaration — Factory

How a variable that was found becomes a symbol.  A search knows nothing about symbols: it hands
every variable it finds to a factory, which answers with a symbol of its own type and may keep a
state from one variable to the next.

`Call.recorder` is the factory whose symbols are the calls it receives.
-/

namespace InlineLocals

/-- Scopes are told apart by number. -/
abbrev ScopeId := Nat

/-- What makes symbols of type `S`, with a state of type `σ`. -/
structure SymbolFactory (σ S : Type) where
  /-- A variable bound by a pattern: the scope it belongs to, the type the pattern names if it
  names one, the variable's name, and the range of the pattern. -/
  patternVariable : ScopeId → Option Node → Identifier → Range → σ → S × σ
  /-- A variable declared in an argument: the scope it belongs to, the scope around that if there
  is one, the declared type, the variable's name, and the call whose argument it is. -/
  outVariable : ScopeId → Option ScopeId → Node → Identifier → Node → σ → S × σ

/-- One request to a factory, with all that it is told. -/
inductive Call where
  | pattern (scope : ScopeId) (type : Option Node) (name : Identifier) (position : Range)
  | out (scope : ScopeId) (enclosing : Option ScopeId) (type : Node) (name : Identifier)
    (context : Node)

/-- Answers every call with the call itself. -/
def Call.recorder : SymbolFactory Unit Call where
  patternVariable scope type name position _ := (.pattern scope type name position, ())
  outVariable scope enclosing type name context _ := (.out scope enclosing type name context, ())

/-- Lets a factory answer a recorded call. -/
def Call.replay {σ S : Type} (factory : SymbolFactory σ S) : Call → σ → S × σ
  | pattern scope type name position => factory.patternVariable scope type name position
  | out scope enclosing type name context => factory.outVariable scope enclosing type name context

end InlineLocals
