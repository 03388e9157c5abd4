import InlineLocals.Declaration.Search
import InlineLocals.Scope.Basic

/-!
# Scope — Builder

One scope for each container of declarations: a list of statements, a section of a switch, or a
call to another constructor.  The variables of its declaration statements and those declared
inside its expressions are collected in the order of the source, and are declared in the scope
when all of them are found.  When the search fails the scope stays empty.

Blocks, loops and sections within a container are containers of their own; their variables do
not belong to the scope of the container around them.
-/

namespace InlineLocals

/-- What has a scope of its own. -/
inductive Container where
  | statements (statements : List Node)
  | switchSection (node : Node)
  | constructorInitializer (node : Node)

namespace Container

/-- The container of a statement: the statements of a block, or else the statement alone.  Where
there is no statement the container is empty. -/
def ofStatement : Option Node → Container
  | none => statements []
  | some n => if n.kind = .block then statements n.children else statements [n]

end Container

/-- A statement whose expressions declare variables in the scope of the statement. -/
def Kind.hostsVariables : Kind → Bool
  | .expressionStatement | .ifStatement | .whileStatement | .doStatement | .switchStatement
  | .lockStatement | .returnStatement | .throwStatement => true
  | _ => false

/-- There are eight of them.  A declaration statement is not among them: its variables are its own
as well as those of its initial values. -/
theorem Kind.hostsVariables_iff {kind : Kind} : kind.hostsVariables = true ↔
    kind = .expressionStatement ∨ kind = .ifStatement ∨ kind = .whileStatement ∨
      kind = .doStatement ∨ kind = .switchStatement ∨ kind = .lockStatement ∨
      kind = .returnStatement ∨ kind = .throwStatement := by
  cases kind <;> simp [hostsVariables]

namespace Search

/-- A search whose symbols are local symbols. -/
abbrev Locals := Search SymbolId LocalSymbol

/-- Collects a variable of a declaration statement, and the variables of its initial value. -/
def collectDeclarator (s : Locals) (names : Names) (type declarator : Node) :
    Run SymbolId LocalSymbol Unit := do
  match declarator.identifier? with
  | some i => append (LocalSymbol.regular names s.scope type i)
  | none => pure ()
  s.visit declarator

/-- Collects the variables that a statement declares in the scope around it. -/
def collectStatement (s : Locals) (names : Names) (statement : Node) :
    Run SymbolId LocalSymbol Unit :=
  match statement.kind, statement.children with
  | .localDeclarationStatement, [.mk _ (type :: declarators)] =>
    declarators.forM (s.collectDeclarator names type)
  | kind, _ => if kind.hostsVariables then s.visit statement else pure ()

/-- Collects the variables of a container. -/
def collect (s : Locals) (names : Names) : Container → Run SymbolId LocalSymbol Unit
  | .statements statements => statements.forM (s.collectStatement names)
  | .switchSection node => do
    s.visit node
    (node.children.filter (·.kind.isStatement)).forM (s.collectStatement names)
  | .constructorInitializer node =>
    s.findInList (node.children.flatMap fun list => list.children.flatMap Node.children)

end Search

/-- The scopes built so far, and the number of the next symbol. -/
structure ScopeBuilder where
  scopes : Scopes := .empty
  nextSymbol : SymbolId := 0

namespace ScopeBuilder

/-- Builds the scope of a container below `parent`.  The symbols that a failed search made are
not declared, but their numbers are used up. -/
def build (b : ScopeBuilder) (tree : Tree) (names : Names) (parent : Option ScopeId)
    (container : Container) : Except ContextError ScopeId × ScopeBuilder :=
  match b.scopes.push parent with
  | (scope, scopes) =>
    let search : Search.Locals :=
      { tree, factory := LocalSymbol.factory names, scope, enclosing := parent }
    match (search.collect names container).run ⟨#[], b.nextSymbol⟩ with
    | .ok () progress =>
      (.ok scope,
        { scopes := scopes.declareAll scope progress.found.toList, nextSymbol := progress.state })
    | .error e progress => (.error e, { scopes, nextSymbol := progress.state })

end ScopeBuilder

end InlineLocals
