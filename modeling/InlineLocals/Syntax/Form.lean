import InlineLocals.Syntax.Production

/-!
# Syntax — Form

Descriptions of pieces, and their evaluation in a workshop.  A form is a production applied to
forms, a piece taken from the shelf, or one of two repetitions: a chain of one binary operator,
and a piece wrapped in the same way many times.

The parts of a form are evaluated from left to right and before the form's own production is
built, so the order in which a form is written decides every id and every position.
-/

namespace InlineLocals

/-- A way to put a piece into a larger one.  What the larger one needs besides is built after
the piece. -/
inductive Wrapper where
  /-- The expression `(v)`. -/
  | parenthesized
  /-- The negation `!v`. -/
  | negation
  /-- A member of the piece, `v.m`. -/
  | member
  /-- A call with the piece as its argument, `f(v)`. -/
  | call
  /-- A sum with the piece on the right, `a + v`. -/
  | rightOperand
  /-- A lambda with the piece as its body, `x => v`. -/
  | lambda
  /-- The type of arrays of the piece, `v[]`. -/
  | arrayType
  /-- The nullable type `v?`. -/
  | nullableType
  /-- The pattern `(v)`. -/
  | recursivePattern
  /-- A block with the piece as its statement. -/
  | block
  /-- A conditional statement with the piece as its second branch, `if (c) ; else v`. -/
  | elseBranch
  /-- A query body without clauses that the piece continues, `select s into g v`. -/
  | continuation
deriving DecidableEq

namespace Wrapper

open Production

/-- Wraps a piece once. -/
def wrap (w : Wrapper) (v : Piece) : Build Piece := do
  match w with
  | parenthesized => Production.parenthesized.build [[v]]
  | negation => (prefixUnary .exclamationToken).build [[v]]
  | member => (memberAccess "m").build [[v]]
  | call =>
    let callee ← (identifierName "f").build []
    let argument ← argument.build [[v]]
    invocation.build [[callee], [argument]]
  | rightOperand =>
    let left ← (identifierName "a").build []
    (binary .plusToken).build [[left], [v]]
  | lambda =>
    let parameter ← (parameter "x").build [[]]
    simpleLambda.build [[parameter], [v]]
  | arrayType => (Production.arrayType 1).build [[v]]
  | nullableType => Production.nullableType.build [[v]]
  | recursivePattern =>
    let inner ← (subpattern none).build [[v]]
    Production.recursivePattern.build [[], [inner], [], []]
  | block => Production.block.build [[v]]
  | elseBranch =>
    let condition ← (identifierName "c").build []
    let branch ← emptyStatement.build []
    ifStatement.build [[condition], [branch], [v]]
  | continuation =>
    let next ← (queryContinuation "g").build [[v]]
    let selected ← (identifierName "s").build []
    let selection ← selectClause.build [[selected]]
    queryBody.build [[], [selection], [next]]

/-- Wraps a piece a number of times. -/
def wrapTimes (w : Wrapper) : Nat → Piece → Build Piece
  | 0, v => pure v
  | times + 1, v => do w.wrapTimes times (← w.wrap v)

end Wrapper

/-- A description of a piece. -/
inductive Form where
  /-- The piece at a place of the shelf, which is taken from there. -/
  | take (place : Nat)
  /-- A production, with one group of forms for each of its slots. -/
  | make (production : Production) (groups : List (List Form))
  /-- The operands of one binary operator, associated to the left. -/
  | chain (operator : Kind) (operands : List Form)
  /-- A form whose piece is wrapped a number of times. -/
  | nest (times : Nat) (wrapper : Wrapper) (inner : Form)

namespace Form

mutual

/-- Builds the piece that a form describes. -/
def eval : Form → Build Piece
  | take place => Build.take place
  | make production groups => do production.build (← evalGroups groups)
  | chain operator operands => evalChain operator none operands
  | nest times wrapper inner => do wrapper.wrapTimes times (← inner.eval)

/-- Builds the pieces of a list of forms, from left to right. -/
def evalAll : List Form → Build (List Piece)
  | [] => pure []
  | form :: forms => do
    let piece ← form.eval
    return piece :: (← evalAll forms)

/-- Builds the pieces of all groups, from left to right. -/
def evalGroups : List (List Form) → Build (List (List Piece))
  | [] => pure []
  | group :: groups => do
    let pieces ← evalAll group
    return pieces :: (← evalGroups groups)

/-- Builds a chain of operands on top of what is there of it, if anything is. -/
def evalChain (operator : Kind) : Option Piece → List Form → Build Piece
  | none, [] => throw .emptyChain
  | some left, [] => pure left
  | none, form :: forms => do
    let first ← form.eval
    evalChain operator (some first) forms
  | some left, form :: forms => do
    let right ← form.eval
    let joined ← (Production.binary operator).build [[left], [right]]
    evalChain operator (some joined) forms

end

/-! ### Common forms -/

def name (text : String) : Form := make (.identifierName text) []

def designation (text : String) : Form := make (.identifier text) []

def predefinedType (keyword : Kind) : Form := make (.predefinedType keyword) []

/-- The declaration `type name` as an expression. -/
def declaration (type designation : Form) : Form :=
  make .declarationExpression [[type], [designation]]

/-- The argument `out e`. -/
def outArgument (e : Form) : Form := make (.refKindArgument .outKeyword) [[e]]

/-- The argument `out type name`. -/
def outDeclaration (type : Form) (text : String) : Form :=
  outArgument (declaration type (designation text))

def invocation (callee : Form) (arguments : List Form) : Form :=
  make .invocation [[callee], arguments]

/-- A declaration statement of locals. -/
def localDeclaration (type : Form) (declarators : List Form) : Form :=
  make .localDeclaration [[make .variableDeclaration [[type], declarators]]]

/-- What an operand of a generated chain does with its name. -/
inductive OperandShape where
  /-- It mentions the name. -/
  | mention
  /-- It declares the name in a pattern. -/
  | inPattern
  /-- It declares the name in an argument. -/
  | inArgument
deriving DecidableEq

/-- The operand of that shape for a name. -/
def operand : OperandShape → String → Form
  | .mention, text => name text
  | .inPattern, text =>
    make .isPattern [[name "o"],
      [make .declarationPattern [[predefinedType .intKeyword], [designation text]]]]
  | .inArgument, text =>
    invocation (name "M") [outDeclaration (predefinedType .intKeyword) text]

/-- A chain of `count` operands whose shapes repeat those of a list; the names are made of a
stem and the operand's number. -/
def generatedChain (operator : Kind) (count : Nat) (shapes : Array OperandShape)
    (stem : String) : Form :=
  chain operator <| (List.range count).map fun i =>
    operand ((shapes[i % shapes.size]?).getD .mention) (stem ++ toString i)

end Form

namespace Workshop

/-- Builds the pieces of a list of forms one after the other and puts each on the shelf. -/
def shelve : List Form → Build Unit
  | [] => pure ()
  | form :: forms => do
    Build.put (← form.eval)
    shelve forms

/-- Forms that build without a failure leave the rest to the workshop they end in. -/
theorem run_shelve_append {forms : List Form} (forms' : List Form) {w w' : Workshop}
    (h : (shelve forms).run w = .ok ((), w')) :
    (shelve (forms ++ forms')).run w = (shelve forms').run w' := by
  have happend : shelve (forms ++ forms') = (do shelve forms; shelve forms') := by
    clear h
    induction forms with
    | nil => rw [List.nil_append, shelve, pure_bind]
    | cons form forms ih => simp only [List.cons_append, shelve, ih, bind_assoc]
  rw [happend, StateT.run_bind, h]
  rfl

/-- The workshop after building all the forms of a list in an empty one. -/
def ofForms (forms : List Form) : Except BuildError Workshop := do
  let (_, w) ← (shelve forms).run {}
  return w

end Workshop

end InlineLocals
