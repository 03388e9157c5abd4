import InlineLocals.Symbol.Table

/-!
# Scope — Basic

Lexical scopes.  A scope keeps every symbol declared in it, in order, and finds by name the one
declared last.  Scopes are numbered in the order in which they are made and name their parent by
its number.

A name is looked up from a scope outward.  The number given as a parent is not checked, so a
scope may lie on its own way outward; from there the walk would go in circles.  No walk that ends
visits more scopes than there are, and `Scopes.resolve` says `endless` of one that would.
-/

namespace InlineLocals

/-- A lexical scope. -/
structure Scope where
  id : ScopeId
  /-- The scope around it, by number; the outermost has none. -/
  parent : Option ScopeId
  /-- The symbol declared last under each name. -/
  locals : SymbolTable
  /-- Every symbol declared in the scope, in order. -/
  symbols : Array LocalSymbol

namespace Scope

/-- A scope in which nothing is declared. -/
def empty (id : ScopeId) (parent : Option ScopeId) : Scope :=
  { id, parent, locals := .empty, symbols := #[] }

/-- Declares a symbol under its name. -/
def declare (s : Scope) (symbol : LocalSymbol) : Scope :=
  { s with
    locals := s.locals.set symbol.name symbol.id
    symbols := s.symbols.push symbol }

/-- Declares symbols one after the other. -/
def declareAll (s : Scope) (symbols : List LocalSymbol) : Scope := symbols.foldl declare s

/-- The symbol that a name has in this scope itself: the last one with the number that the table
gives the name. -/
def get? (s : Scope) (name : Name) : Option LocalSymbol := do
  let id ← s.locals.get? name
  s.symbols.toList.reverse.find? (fun symbol => symbol.id == id)

end Scope

/-- What looking up a name comes to. -/
inductive Resolution where
  | bound (symbol : LocalSymbol)
  /-- The walk ends, and no scope on it declares the name. -/
  | unbound
  /-- The walk comes back to scopes that it has visited before. -/
  | endless
deriving DecidableEq

/-- The symbol that was found, if one was. -/
def Resolution.symbol? : Resolution → Option LocalSymbol
  | bound symbol => some symbol
  | unbound | endless => none

/-- All scopes, each at the place of its number. -/
structure Scopes where
  scopes : Array Scope

namespace Scopes

/-- No scopes. -/
def empty : Scopes := ⟨#[]⟩

def size (ss : Scopes) : Nat := ss.scopes.size

def isEmpty (ss : Scopes) : Bool := ss.size == 0

/-- The scope with a number. -/
def get? (ss : Scopes) (id : ScopeId) : Option Scope := ss.scopes[id]?

/-- Adds a scope with the next number. -/
def push (ss : Scopes) (parent : Option ScopeId) : ScopeId × Scopes :=
  (ss.size, ⟨ss.scopes.push (.empty ss.size parent)⟩)

/-- Declares symbols in a scope; where there is no such scope, nothing changes. -/
def declareAll (ss : Scopes) (id : ScopeId) (symbols : List LocalSymbol) : Scopes :=
  ⟨ss.scopes.modify id fun s => s.declareAll symbols⟩

/-- Declares a symbol in a scope. -/
def declare (ss : Scopes) (id : ScopeId) (symbol : LocalSymbol) : Scopes :=
  ss.declareAll id [symbol]

theorem size_push (ss : Scopes) (parent : Option ScopeId) :
    (ss.push parent).2.size = ss.size + 1 :=
  Array.size_push _

theorem get?_push (ss : Scopes) (parent : Option ScopeId) (id : ScopeId) :
    (ss.push parent).2.get? id =
      if id = ss.size then some (.empty ss.size parent) else ss.get? id :=
  Array.getElem?_push

theorem size_declareAll (ss : Scopes) (id : ScopeId) (symbols : List LocalSymbol) :
    (ss.declareAll id symbols).size = ss.size :=
  Array.size_modify

/-- Declaring symbols in a scope changes that scope alone. -/
theorem get?_declareAll (ss : Scopes) (id other : ScopeId) (symbols : List LocalSymbol) :
    (ss.declareAll id symbols).get? other =
      if id = other then (ss.get? other).map (·.declareAll symbols) else ss.get? other :=
  Array.getElem?_modify

/-- Walks outward from a scope, over at most `limit` scopes, to the first that declares the
name. -/
def walk (ss : Scopes) (name : Name) : (limit : Nat) → Option ScopeId → Resolution
  | _, none => .unbound
  | 0, some id => if (ss.get? id).isSome then .endless else .unbound
  | limit + 1, some id =>
    match ss.get? id with
    | none => .unbound
    | some s =>
      match s.get? name with
      | some symbol => .bound symbol
      | none => ss.walk name limit s.parent

/-- Looks up a name from a scope outward.  A walk that has visited as many scopes as there are
and has not ended has visited one of them twice. -/
def resolve (ss : Scopes) (id : ScopeId) (name : Name) : Resolution :=
  ss.walk name ss.size (some id)

/-- The symbol that a name means in a scope, if any. -/
def lookup (ss : Scopes) (id : ScopeId) (name : Name) : Option LocalSymbol :=
  (ss.resolve id name).symbol?

end Scopes

end InlineLocals
