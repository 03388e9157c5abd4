import InlineLocals.Syntax.Workshop

/-!
# Syntax — Production

The grammar of the language whose trees are searched.  A production says what a leaf or a node
of the language is made of.  Its parts are handed in group by group, one group for each of its
slots; the production writes its own leaves after that, then makes the nodes it hides (the list
of arguments of a call, say), and the node itself last.

`Production.product` is the grammar, as data: the kind of the node, its leaves and its slots in
source order.  `Production.build` is the one way in which any of them is built.
-/

namespace InlineLocals

/-- What may stand in a slot. -/
inductive Category where
  | type | expression | pattern | statement
  | argument | designation | subpattern | switchArm | parameter | lambdaBody
  | fromClause | queryClause | selectOrGroup | queryBody | continuation
  | variableDeclaration | declarator | switchSection | switchLabel
deriving DecidableEq

namespace Category

/-- The kinds of nodes of the category; a designation is a leaf. -/
def hasKind : Category → Kind → Bool
  | type, kind => kind.isType
  | expression, kind => kind.isExpression
  | pattern, kind => kind.isPattern
  | statement, kind => kind.isStatement
  | argument, kind => kind == .argument
  | designation, _ => false
  | subpattern, kind => kind == .subpattern
  | switchArm, kind => kind == .switchExpressionArm
  | parameter, kind => kind == .parameter
  | lambdaBody, kind => kind == .block || kind.isExpression
  | fromClause, kind => kind == .fromClause
  | queryClause, kind => kind.isQueryClause
  | selectOrGroup, kind => kind == .selectClause || kind == .groupClause
  | queryBody, kind => kind == .queryBody
  | continuation, kind => kind == .queryContinuation
  | variableDeclaration, kind => kind == .variableDeclaration
  | declarator, kind => kind == .variableDeclarator
  | switchSection, kind => kind == .switchSection
  | switchLabel, kind =>
    kind == .caseSwitchLabel || kind == .casePatternSwitchLabel || kind == .defaultSwitchLabel

/-- The piece belongs to the category. -/
def admits (c : Category) : Piece → Bool
  | .node n => c.hasKind n.kind
  | .leaf (.token _) => false
  | .leaf (.identifier _) | .leaf (.discard _ _) => c == .designation

end Category

/-- How many pieces stand in a slot. -/
inductive Arity where
  | one | optional | many
deriving DecidableEq

/-- Whether that many pieces may stand in the slot. -/
def Arity.admits : Arity → Nat → Bool
  | one, n => n == 1
  | optional, n => decide (n ≤ 1)
  | many, _ => true

/-- A place for parts of a node. -/
structure Slot where
  arity : Arity
  category : Category
  /-- The parts stand in a hidden node of this kind.  An optional part that is absent leaves its
  hidden node out; a list is hidden even when it is empty. -/
  hidden : Option Kind := none
  /-- The parts are attached to the finished node: they come first among its children and its
  range does not take them in. -/
  attached : Bool := false

namespace Slot

def one (category : Category) : Slot := { arity := .one, category }

def optional (category : Category) : Slot := { arity := .optional, category }

def many (category : Category) : Slot := { arity := .many, category }

/-- The slot whose parts stand in a hidden node. -/
def within (s : Slot) (kind : Kind) : Slot := { s with hidden := some kind }

/-- The group has the slot's number of pieces, and they are of its category. -/
def admits (s : Slot) (group : List Piece) : Bool :=
  s.arity.admits group.length && group.all s.category.admits

/-- The slots and the groups correspond one to one. -/
def allAdmit : List Slot → List (List Piece) → Bool
  | [], [] => true
  | s :: slots, group :: groups => s.admits group && allAdmit slots groups
  | _, _ => false

/-- The parts that a group contributes to its node. -/
def fill (s : Slot) (group : List Piece) : Build (List Piece) :=
  match s.hidden with
  | none => pure group
  | some kind =>
    if s.arity = .optional && group.isEmpty then
      pure []
    else do
      return [.node (← Build.node kind [] (group.filterMap Piece.node?) 0)]

/-- The parts of all groups in order, those that are attached apart from the others. -/
def fillAll : List Slot → List (List Piece) → Build (List Piece × List Piece)
  | s :: slots, group :: groups => do
    let parts ← s.fill group
    let (attached, inner) ← fillAll slots groups
    return if s.attached then (parts ++ attached, inner) else (attached, parts ++ inner)
  | _, _ => pure ([], [])

end Slot

/-- What a production makes. -/
inductive Product where
  /-- A leaf. -/
  | leaf (spelling : Spelling)
  /-- A node that is itself a stretch of text, and has no parts. -/
  | word (kind : Kind) (width : Nat)
  /-- A node over a token that is written and then dropped. -/
  | covering (kind : Kind) (token : Kind)
  /-- A node over the leaves it writes and the parts in its slots. -/
  | node (kind : Kind) (leaves : List Spelling) (slots : List Slot) (rank : Nat)

namespace Product

/-- The slots of a product, in the order in which their parts are built. -/
def slots : Product → List Slot
  | node _ _ slots _ => slots
  | _ => []

/-- Makes a product out of the groups of parts for its slots. -/
def make (product : Product) (groups : List (List Piece)) : Build Piece := do
  match product with
  | leaf spelling => return .leaf (← spelling.write)
  | word kind width => return .node (← Build.bareNode kind (← Build.stretch width))
  | covering kind token =>
    let dropped ← (Spelling.fixed token).write
    return .node (← Build.bareNode kind dropped.range)
  | node kind spellings slots rank =>
    let written ← spellings.mapM Spelling.write
    let (attached, inner) ← Slot.fillAll slots groups
    let leaves := written ++ inner.filterMap Piece.leaf?
    let node ← Build.node kind leaves (inner.filterMap Piece.node?) rank
    return .node (node.withFirst (attached.filterMap Piece.node?))

/-- A node that writes no leaf of its own. -/
def plain (kind : Kind) (slots : List Slot) : Product := node kind [] slots 0

/-- A node that holds a name. -/
def named (kind : Kind) (name : String) (slots : List Slot) : Product :=
  node kind [.identifier name] slots 0

/-- A node that holds a token with the fixed text of its kind. -/
def marked (kind token : Kind) (slots : List Slot) : Product := node kind [.fixed token] slots 0

end Product

/-- The productions of the language. -/
inductive Production where
  -- Leaves
  | token (kind : Kind) | identifier (text : String) | discardDesignation
  -- Types
  | predefinedType (keyword : Kind) | identifierName (text : String) | genericName (text : String)
  | arrayType (rank : Nat) | nullableType
  -- Simple expressions
  | numericLiteral (text : String) | stringLiteral (text : String) | boolLiteral (value : Bool)
  | nullLiteral | thisExpression | parenthesized | binary (operator : Kind) | assignment
  | prefixUnary (operator : Kind) | cast | conditional | memberAccess (name : String)
  -- Calls and arguments
  | argument | refKindArgument (keyword : Kind) | invocation | elementAccess
  /-- With or without a list of arguments, and with or without an initializer. -/
  | objectCreation (called filled : Bool)
  | initializer
  | constructorInitializer (kind : Kind) | declarationExpression
  -- Patterns
  | isPattern | declarationPattern | constantPattern | varPattern | discardPattern
  | subpattern (name : Option String) | recursivePattern | whenClause | switchExpression
  | switchArm
  -- Anonymous functions
  | parameter (name : String) | parenthesizedLambda | simpleLambda | anonymousMethod
  -- Queries
  | fromClause (name : String) | letClause (name : String) | whereClause
  | joinClause (name : String) (into : Option String) (typed : Bool) | orderByClause
  | selectClause | groupClause | queryBody | queryContinuation (name : String) | query
  -- Statements
  | block | declarator (name : String) | variableDeclaration | localDeclaration
  | expressionStatement | ifStatement | whileStatement | doStatement | forStatement
  | forEachStatement (name : String) | caseLabel | casePatternLabel | defaultLabel
  | switchSection | switchStatement | lockStatement | returnStatement | throwStatement
  | breakStatement | continueStatement | emptyStatement
deriving DecidableEq

namespace Production

open Spelling (fixed)
open Slot (one optional many)
open Product (plain named marked)

/-- The grammar. -/
def product : Production → Product
  | token kind => .leaf (fixed kind)
  | identifier text => .leaf (.identifier text)
  | discardDesignation => .leaf .discard
  | predefinedType keyword => marked .predefinedType keyword []
  | identifierName text => named .identifierName text []
  | genericName text => named .genericName text [many .type]
  | arrayType rank => .node .arrayType [] [one .type] rank
  | nullableType => plain .nullableType [one .type]
  | numericLiteral text =>
    .node .numericLiteralExpression [.token .numericLiteralToken text.utf8ByteSize] [] 0
  | stringLiteral text =>
    .node .stringLiteralExpression [.token .stringLiteralToken (text.utf8ByteSize + 2)] [] 0
  | boolLiteral true => marked .trueLiteralExpression .trueKeyword []
  | boolLiteral false => marked .falseLiteralExpression .falseKeyword []
  | nullLiteral => marked .nullLiteralExpression .nullKeyword []
  | thisExpression => .covering .thisExpression .thisKeyword
  | parenthesized => plain .parenthesizedExpression [one .expression]
  | binary operator => marked .binaryExpression operator [one .expression, one .expression]
  | assignment => marked .assignmentExpression .equalsToken [one .expression, one .expression]
  | prefixUnary operator => marked .prefixUnaryExpression operator [one .expression]
  | cast => plain .castExpression [one .type, one .expression]
  | conditional =>
    plain .conditionalExpression [one .expression, one .expression, one .expression]
  | memberAccess name => named .simpleMemberAccessExpression name [one .expression]
  | argument => plain .argument [one .expression]
  | refKindArgument keyword => marked .argument keyword [one .expression]
  | invocation =>
    plain .invocationExpression [one .expression, (many .argument).within .argumentList]
  | elementAccess =>
    plain .elementAccessExpression
      [one .expression, (many .argument).within .bracketedArgumentList]
  | objectCreation called filled =>
    plain .objectCreationExpression <| [one .type]
      ++ (if called then [(many .argument).within .argumentList] else [])
      ++ (if filled then [(many .expression).within .initializerExpression] else [])
  | initializer => plain .initializerExpression [many .expression]
  | constructorInitializer kind => plain kind [(many .argument).within .argumentList]
  | declarationExpression => plain .declarationExpression [one .type, one .designation]
  | isPattern => plain .isPatternExpression [one .expression, one .pattern]
  | declarationPattern => plain .declarationPattern [one .type, one .designation]
  | constantPattern => plain .constantPattern [one .expression]
  | varPattern => plain .varPattern [one .designation]
  | discardPattern => .word .discardPattern 1
  | subpattern none => plain .subpattern [one .pattern]
  | subpattern (some name) => named .subpattern name [one .pattern]
  | recursivePattern =>
    plain .recursivePattern
      [optional .type, many .subpattern, many .subpattern, optional .designation]
  | whenClause => plain .whenClause [one .expression]
  | switchExpression => plain .switchExpression [one .expression, many .switchArm]
  | switchArm =>
    plain .switchExpressionArm
      [one .pattern, (optional .expression).within .whenClause, one .expression]
  | parameter name => named .parameter name [optional .type]
  | parenthesizedLambda =>
    plain .parenthesizedLambdaExpression [many .parameter, one .lambdaBody]
  | simpleLambda => plain .simpleLambdaExpression [one .parameter, one .lambdaBody]
  | anonymousMethod =>
    plain .anonymousMethodExpression [many .parameter, (many .statement).within .block]
  | fromClause name => named .fromClause name [optional .type, one .expression]
  | letClause name => named .letClause name [one .expression]
  | whereClause => plain .whereClause [one .expression]
  | joinClause name into typed =>
    .node .joinClause (.identifier name :: (into.map Spelling.identifier).toList)
      ((if typed then [{ one .type with attached := true }] else [])
        ++ [one .expression, one .expression, one .expression]) 0
  | orderByClause => plain .orderByClause [many .expression]
  | selectClause => plain .selectClause [one .expression]
  | groupClause => plain .groupClause [one .expression, one .expression]
  | queryBody => plain .queryBody [many .queryClause, one .selectOrGroup, optional .continuation]
  | queryContinuation name => named .queryContinuation name [one .queryBody]
  | query => plain .queryExpression [one .fromClause, one .queryBody]
  | block => plain .block [many .statement]
  | declarator name => named .variableDeclarator name [optional .expression]
  | variableDeclaration => plain .variableDeclaration [one .type, many .declarator]
  | localDeclaration => plain .localDeclarationStatement [one .variableDeclaration]
  | expressionStatement => plain .expressionStatement [one .expression]
  | ifStatement => plain .ifStatement [one .expression, one .statement, optional .statement]
  | whileStatement => plain .whileStatement [one .expression, one .statement]
  | doStatement => plain .doStatement [one .statement, one .expression]
  | forStatement =>
    plain .forStatement
      [optional .variableDeclaration, many .expression, optional .expression, many .expression,
        one .statement]
  | forEachStatement name =>
    named .forEachStatement name [one .type, one .expression, one .statement]
  | caseLabel => plain .caseSwitchLabel [one .expression]
  | casePatternLabel =>
    plain .casePatternSwitchLabel [one .pattern, (optional .expression).within .whenClause]
  | defaultLabel => .word .defaultSwitchLabel 7
  | switchSection => plain .switchSection [many .switchLabel, many .statement]
  | switchStatement => plain .switchStatement [one .expression, many .switchSection]
  | lockStatement => plain .lockStatement [one .expression, one .statement]
  | returnStatement => plain .returnStatement [optional .expression]
  | throwStatement => plain .throwStatement [optional .expression]
  | breakStatement => .word .breakStatement 5
  | continueStatement => .word .continueStatement 8
  | emptyStatement => .word .emptyStatement 1

/-- The kind that the production asks for is one that it can make. -/
def check : Production → Build Unit
  | constructorInitializer kind =>
    if kind.isConstructorInitializer then pure () else throw (.notConstructorInitializer kind)
  | _ => pure ()

/-- Builds a production out of the groups of parts for its slots. -/
def build (p : Production) (groups : List (List Piece)) : Build Piece := do
  p.check
  unless Slot.allAdmit p.product.slots groups do
    throw .misfit
  p.product.make groups

end Production

end InlineLocals
