/-!
# Syntax — Kind

The kinds of tokens and nodes of a syntax tree, with their numbers, names and fixed texts.

Kinds are numbered with gaps so that each category of kinds is an interval of numbers: a token,
a statement, a pattern or a query clause is recognised by comparing numbers.
-/

namespace InlineLocals

/-- What a token or a node of a syntax tree is. -/
inductive Kind where
  -- Tokens whose text varies
  | unknown | identifierToken | numericLiteralToken | stringLiteralToken
  -- Punctuation and operators
  | plusToken | minusToken | asteriskToken | slashToken | percentToken | ampersandAmpersandToken
  | barBarToken | equalsEqualsToken | exclamationEqualsToken | lessThanToken | greaterThanToken
  | questionQuestionToken | exclamationToken | equalsToken | plusEqualsToken | minusEqualsToken
  -- Keywords
  | boolKeyword | intKeyword | longKeyword | stringKeyword | objectKeyword | outKeyword
  | refKeyword | inKeyword | trueKeyword | falseKeyword | nullKeyword | thisKeyword
  -- Names and types
  | identifierName | genericName | predefinedType | arrayType | nullableType
  -- Expressions
  | thisExpression | numericLiteralExpression | stringLiteralExpression | trueLiteralExpression
  | falseLiteralExpression | nullLiteralExpression | parenthesizedExpression | binaryExpression
  | assignmentExpression | prefixUnaryExpression | castExpression | conditionalExpression
  | simpleMemberAccessExpression | invocationExpression | elementAccessExpression
  | objectCreationExpression | initializerExpression | isPatternExpression | switchExpression
  | switchExpressionArm | declarationExpression | parenthesizedLambdaExpression
  | simpleLambdaExpression | anonymousMethodExpression | queryExpression
  -- Arguments and parameters
  | argument | argumentList | bracketedArgumentList | thisConstructorInitializer
  | baseConstructorInitializer | parameter
  -- Designations and patterns
  | singleVariableDesignation | discardDesignation | declarationPattern | constantPattern
  | varPattern | recursivePattern | discardPattern | subpattern
  -- Statements
  | block | localDeclarationStatement | expressionStatement | ifStatement | whileStatement
  | doStatement | forStatement | forEachStatement | switchStatement | lockStatement
  | returnStatement | throwStatement | breakStatement | continueStatement | emptyStatement
  -- Parts of statements
  | variableDeclaration | variableDeclarator | switchSection | caseSwitchLabel
  | casePatternSwitchLabel | defaultSwitchLabel | whenClause
  -- Parts of queries
  | fromClause | letClause | whereClause | joinClause | orderByClause | selectClause
  | groupClause | queryBody | queryContinuation
deriving DecidableEq, Inhabited

namespace Kind

/-- The number of a kind; kinds are ordered by it. -/
def number : Kind → Nat
  | .unknown => 0
  | .identifierToken => 1
  | .numericLiteralToken => 2
  | .stringLiteralToken => 3
  | .plusToken => 10
  | .minusToken => 11
  | .asteriskToken => 12
  | .slashToken => 13
  | .percentToken => 14
  | .ampersandAmpersandToken => 15
  | .barBarToken => 16
  | .equalsEqualsToken => 17
  | .exclamationEqualsToken => 18
  | .lessThanToken => 19
  | .greaterThanToken => 20
  | .questionQuestionToken => 21
  | .exclamationToken => 22
  | .equalsToken => 23
  | .plusEqualsToken => 24
  | .minusEqualsToken => 25
  | .boolKeyword => 40
  | .intKeyword => 41
  | .longKeyword => 42
  | .stringKeyword => 43
  | .objectKeyword => 44
  | .outKeyword => 45
  | .refKeyword => 46
  | .inKeyword => 47
  | .trueKeyword => 48
  | .falseKeyword => 49
  | .nullKeyword => 50
  | .thisKeyword => 51
  | .identifierName => 100
  | .genericName => 101
  | .predefinedType => 102
  | .arrayType => 103
  | .nullableType => 104
  | .thisExpression => 120
  | .numericLiteralExpression => 121
  | .stringLiteralExpression => 122
  | .trueLiteralExpression => 123
  | .falseLiteralExpression => 124
  | .nullLiteralExpression => 125
  | .parenthesizedExpression => 126
  | .binaryExpression => 127
  | .assignmentExpression => 128
  | .prefixUnaryExpression => 129
  | .castExpression => 130
  | .conditionalExpression => 131
  | .simpleMemberAccessExpression => 132
  | .invocationExpression => 133
  | .elementAccessExpression => 134
  | .objectCreationExpression => 135
  | .initializerExpression => 136
  | .isPatternExpression => 137
  | .switchExpression => 138
  | .switchExpressionArm => 139
  | .declarationExpression => 140
  | .parenthesizedLambdaExpression => 141
  | .simpleLambdaExpression => 142
  | .anonymousMethodExpression => 143
  | .queryExpression => 144
  | .argument => 160
  | .argumentList => 161
  | .bracketedArgumentList => 162
  | .thisConstructorInitializer => 163
  | .baseConstructorInitializer => 164
  | .parameter => 165
  | .singleVariableDesignation => 180
  | .discardDesignation => 181
  | .declarationPattern => 182
  | .constantPattern => 183
  | .varPattern => 184
  | .recursivePattern => 185
  | .discardPattern => 186
  | .subpattern => 187
  | .block => 200
  | .localDeclarationStatement => 201
  | .expressionStatement => 202
  | .ifStatement => 203
  | .whileStatement => 204
  | .doStatement => 205
  | .forStatement => 206
  | .forEachStatement => 207
  | .switchStatement => 208
  | .lockStatement => 209
  | .returnStatement => 210
  | .throwStatement => 211
  | .breakStatement => 212
  | .continueStatement => 213
  | .emptyStatement => 214
  | .variableDeclaration => 230
  | .variableDeclarator => 231
  | .switchSection => 232
  | .caseSwitchLabel => 233
  | .casePatternSwitchLabel => 234
  | .defaultSwitchLabel => 235
  | .whenClause => 236
  | .fromClause => 250
  | .letClause => 251
  | .whereClause => 252
  | .joinClause => 253
  | .orderByClause => 254
  | .selectClause => 255
  | .groupClause => 256
  | .queryBody => 257
  | .queryContinuation => 258

/-- The written name of a kind. -/
def name : Kind → String
  | .unknown => "Unknown"
  | .identifierToken => "IdentifierToken"
  | .numericLiteralToken => "NumericLiteralToken"
  | .stringLiteralToken => "StringLiteralToken"
  | .plusToken => "PlusToken"
  | .minusToken => "MinusToken"
  | .asteriskToken => "AsteriskToken"
  | .slashToken => "SlashToken"
  | .percentToken => "PercentToken"
  | .ampersandAmpersandToken => "AmpersandAmpersandToken"
  | .barBarToken => "BarBarToken"
  | .equalsEqualsToken => "EqualsEqualsToken"
  | .exclamationEqualsToken => "ExclamationEqualsToken"
  | .lessThanToken => "LessThanToken"
  | .greaterThanToken => "GreaterThanToken"
  | .questionQuestionToken => "QuestionQuestionToken"
  | .exclamationToken => "ExclamationToken"
  | .equalsToken => "EqualsToken"
  | .plusEqualsToken => "PlusEqualsToken"
  | .minusEqualsToken => "MinusEqualsToken"
  | .boolKeyword => "BoolKeyword"
  | .intKeyword => "IntKeyword"
  | .longKeyword => "LongKeyword"
  | .stringKeyword => "StringKeyword"
  | .objectKeyword => "ObjectKeyword"
  | .outKeyword => "OutKeyword"
  | .refKeyword => "RefKeyword"
  | .inKeyword => "InKeyword"
  | .trueKeyword => "TrueKeyword"
  | .falseKeyword => "FalseKeyword"
  | .nullKeyword => "NullKeyword"
  | .thisKeyword => "ThisKeyword"
  | .identifierName => "IdentifierName"
  | .genericName => "GenericName"
  | .predefinedType => "PredefinedType"
  | .arrayType => "ArrayType"
  | .nullableType => "NullableType"
  | .thisExpression => "ThisExpression"
  | .numericLiteralExpression => "NumericLiteralExpression"
  | .stringLiteralExpression => "StringLiteralExpression"
  | .trueLiteralExpression => "TrueLiteralExpression"
  | .falseLiteralExpression => "FalseLiteralExpression"
  | .nullLiteralExpression => "NullLiteralExpression"
  | .parenthesizedExpression => "ParenthesizedExpression"
  | .binaryExpression => "BinaryExpression"
  | .assignmentExpression => "AssignmentExpression"
  | .prefixUnaryExpression => "PrefixUnaryExpression"
  | .castExpression => "CastExpression"
  | .conditionalExpression => "ConditionalExpression"
  | .simpleMemberAccessExpression => "SimpleMemberAccessExpression"
  | .invocationExpression => "InvocationExpression"
  | .elementAccessExpression => "ElementAccessExpression"
  | .objectCreationExpression => "ObjectCreationExpression"
  | .initializerExpression => "InitializerExpression"
  | .isPatternExpression => "IsPatternExpression"
  | .switchExpression => "SwitchExpression"
  | .switchExpressionArm => "SwitchExpressionArm"
  | .declarationExpression => "DeclarationExpression"
  | .parenthesizedLambdaExpression => "ParenthesizedLambdaExpression"
  | .simpleLambdaExpression => "SimpleLambdaExpression"
  | .anonymousMethodExpression => "AnonymousMethodExpression"
  | .queryExpression => "QueryExpression"
  | .argument => "Argument"
  | .argumentList => "ArgumentList"
  | .bracketedArgumentList => "BracketedArgumentList"
  | .thisConstructorInitializer => "ThisConstructorInitializer"
  | .baseConstructorInitializer => "BaseConstructorInitializer"
  | .parameter => "Parameter"
  | .singleVariableDesignation => "SingleVariableDesignation"
  | .discardDesignation => "DiscardDesignation"
  | .declarationPattern => "DeclarationPattern"
  | .constantPattern => "ConstantPattern"
  | .varPattern => "VarPattern"
  | .recursivePattern => "RecursivePattern"
  | .discardPattern => "DiscardPattern"
  | .subpattern => "Subpattern"
  | .block => "Block"
  | .localDeclarationStatement => "LocalDeclarationStatement"
  | .expressionStatement => "ExpressionStatement"
  | .ifStatement => "IfStatement"
  | .whileStatement => "WhileStatement"
  | .doStatement => "DoStatement"
  | .forStatement => "ForStatement"
  | .forEachStatement => "ForEachStatement"
  | .switchStatement => "SwitchStatement"
  | .lockStatement => "LockStatement"
  | .returnStatement => "ReturnStatement"
  | .throwStatement => "ThrowStatement"
  | .breakStatement => "BreakStatement"
  | .continueStatement => "ContinueStatement"
  | .emptyStatement => "EmptyStatement"
  | .variableDeclaration => "VariableDeclaration"
  | .variableDeclarator => "VariableDeclarator"
  | .switchSection => "SwitchSection"
  | .caseSwitchLabel => "CaseSwitchLabel"
  | .casePatternSwitchLabel => "CasePatternSwitchLabel"
  | .defaultSwitchLabel => "DefaultSwitchLabel"
  | .whenClause => "WhenClause"
  | .fromClause => "FromClause"
  | .letClause => "LetClause"
  | .whereClause => "WhereClause"
  | .joinClause => "JoinClause"
  | .orderByClause => "OrderByClause"
  | .selectClause => "SelectClause"
  | .groupClause => "GroupClause"
  | .queryBody => "QueryBody"
  | .queryContinuation => "QueryContinuation"

/-- Every kind, in the order of the numbers. -/
def all : List Kind := [
  .unknown, .identifierToken, .numericLiteralToken, .stringLiteralToken, .plusToken, .minusToken,
  .asteriskToken, .slashToken, .percentToken, .ampersandAmpersandToken, .barBarToken,
  .equalsEqualsToken, .exclamationEqualsToken, .lessThanToken, .greaterThanToken,
  .questionQuestionToken, .exclamationToken, .equalsToken, .plusEqualsToken, .minusEqualsToken,
  .boolKeyword, .intKeyword, .longKeyword, .stringKeyword, .objectKeyword, .outKeyword,
  .refKeyword, .inKeyword, .trueKeyword, .falseKeyword, .nullKeyword, .thisKeyword,
  .identifierName, .genericName, .predefinedType, .arrayType, .nullableType, .thisExpression,
  .numericLiteralExpression, .stringLiteralExpression, .trueLiteralExpression,
  .falseLiteralExpression, .nullLiteralExpression, .parenthesizedExpression, .binaryExpression,
  .assignmentExpression, .prefixUnaryExpression, .castExpression, .conditionalExpression,
  .simpleMemberAccessExpression, .invocationExpression, .elementAccessExpression,
  .objectCreationExpression, .initializerExpression, .isPatternExpression, .switchExpression,
  .switchExpressionArm, .declarationExpression, .parenthesizedLambdaExpression,
  .simpleLambdaExpression, .anonymousMethodExpression, .queryExpression, .argument,
  .argumentList, .bracketedArgumentList, .thisConstructorInitializer,
  .baseConstructorInitializer, .parameter, .singleVariableDesignation, .discardDesignation,
  .declarationPattern, .constantPattern, .varPattern, .recursivePattern, .discardPattern,
  .subpattern, .block, .localDeclarationStatement, .expressionStatement, .ifStatement,
  .whileStatement, .doStatement, .forStatement, .forEachStatement, .switchStatement,
  .lockStatement, .returnStatement, .throwStatement, .breakStatement, .continueStatement,
  .emptyStatement, .variableDeclaration, .variableDeclarator, .switchSection, .caseSwitchLabel,
  .casePatternSwitchLabel, .defaultSwitchLabel, .whenClause, .fromClause, .letClause,
  .whereClause, .joinClause, .orderByClause, .selectClause, .groupClause, .queryBody,
  .queryContinuation]

/-- The kind with a written name. -/
def ofName? (name : String) : Option Kind := all.find? (fun kind => kind.name == name)

/-- The text that every token of the kind has; absent when the text varies from token to token. -/
def text? : Kind → Option String
  | .plusToken => some "+"
  | .minusToken => some "-"
  | .asteriskToken => some "*"
  | .slashToken => some "/"
  | .percentToken => some "%"
  | .ampersandAmpersandToken => some "&&"
  | .barBarToken => some "||"
  | .equalsEqualsToken => some "=="
  | .exclamationEqualsToken => some "!="
  | .lessThanToken => some "<"
  | .greaterThanToken => some ">"
  | .questionQuestionToken => some "??"
  | .exclamationToken => some "!"
  | .equalsToken => some "="
  | .plusEqualsToken => some "+="
  | .minusEqualsToken => some "-="
  | .boolKeyword => some "bool"
  | .intKeyword => some "int"
  | .longKeyword => some "long"
  | .stringKeyword => some "string"
  | .objectKeyword => some "object"
  | .outKeyword => some "out"
  | .refKeyword => some "ref"
  | .inKeyword => some "in"
  | .trueKeyword => some "true"
  | .falseKeyword => some "false"
  | .nullKeyword => some "null"
  | .thisKeyword => some "this"
  | _ => none

/-- The width of a token of the kind: that of its fixed text, and one where the text varies. -/
def width (kind : Kind) : Nat := (kind.text?.map String.utf8ByteSize).getD 1

/-- The kinds of a list in the order of their numbers, each as often as it occurs. -/
def sorted (kinds : List Kind) : List Kind :=
  kinds.mergeSort fun k l => decide (k.number ≤ l.number)

/-- The kind's number lies between those of `first` and `last`, both included. -/
def between (first last kind : Kind) : Bool :=
  decide (first.number ≤ kind.number) && decide (kind.number ≤ last.number)

/-! ### Categories -/

def isPunctuation : Kind → Bool := between .plusToken .minusEqualsToken

def isKeyword : Kind → Bool := between .boolKeyword .thisKeyword

/-- A kind of tokens, as opposed to nodes. -/
def isToken : Kind → Bool := between .unknown .thisKeyword

def isStatement : Kind → Bool := between .block .emptyStatement

def isPattern : Kind → Bool := between .declarationPattern .discardPattern

def isQueryClause : Kind → Bool := between .fromClause .orderByClause

def isType : Kind → Bool := between .identifierName .nullableType

/-- A kind of expressions.  A plain name is one, and an arm of a switch expression is not. -/
def isExpression (kind : Kind) : Bool :=
  kind == .identifierName ||
    (between .thisExpression .queryExpression kind && kind != .switchExpressionArm)

/-- The two calls to another constructor, `: this(...)` and `: base(...)`. -/
def isConstructorInitializer (kind : Kind) : Bool :=
  kind == .thisConstructorInitializer || kind == .baseConstructorInitializer

/-- Lists of arguments: in parentheses and in square brackets. -/
def isArgumentList (kind : Kind) : Bool :=
  kind == .argumentList || kind == .bracketedArgumentList

/-- The nodes whose argument list may declare variables. -/
def isCall (kind : Kind) : Bool :=
  kind == .invocationExpression || kind == .objectCreationExpression ||
    kind.isConstructorInitializer

/-! ### Which kinds they are -/

/-- Nothing is left out of the list. -/
theorem mem_all (kind : Kind) : kind ∈ all := by
  cases kind <;> decide

theorem isConstructorInitializer_iff {kind : Kind} : kind.isConstructorInitializer = true ↔
    kind = .thisConstructorInitializer ∨ kind = .baseConstructorInitializer := by
  simp [isConstructorInitializer]

theorem isArgumentList_iff {kind : Kind} : kind.isArgumentList = true ↔
    kind = .argumentList ∨ kind = .bracketedArgumentList := by
  simp [isArgumentList]

/-- An element access has a list of arguments as well, and is no call. -/
theorem isCall_iff {kind : Kind} : kind.isCall = true ↔
    kind = .invocationExpression ∨ kind = .objectCreationExpression ∨
      kind = .thisConstructorInitializer ∨ kind = .baseConstructorInitializer := by
  simp [isCall, isConstructorInitializer, or_assoc]

end Kind

end InlineLocals
