import InlineLocals.Syntax.Node

/-!
# Syntax — Workshop

Where trees are built.  A workshop hands out ids and positions and owns the table of names.
Every leaf and every node takes the next id.  Every leaf also takes the next stretch of text,
one position apart from the leaf before it; a node takes no text and spans its parts, or stands
empty at the next position when it has none.

Finished pieces are put on the workshop's shelf, and a piece is taken from there at most once.
-/

namespace InlineLocals

/-- Why a piece cannot be built. -/
inductive BuildError where
  /-- A node would end before it starts. -/
  | inverted
  /-- A constructor initializer of a kind that is not one of the two. -/
  | notConstructorInitializer (kind : Kind)
  /-- The parts are not those that the production takes. -/
  | misfit
  /-- There is no piece at that place of the shelf. -/
  | absent (place : Nat)
  /-- A chain of operators without an operand. -/
  | emptyChain
deriving DecidableEq

/-- The state of a workshop. -/
structure Workshop where
  nextId : NodeId := 0
  nextPos : Nat := 0
  names : Names := .empty
  /-- The pieces built so far, and nothing where one was taken. -/
  shelf : Array (Option Piece) := #[]

/-- Work in a workshop that may fail. -/
abbrev Build := StateT Workshop (Except BuildError)

namespace Build

/-- The next id. -/
def freshId : Build NodeId := modifyGet fun w => (w.nextId, { w with nextId := w.nextId + 1 })

/-- The next stretch of text with the given width. -/
def stretch (width : Nat) : Build Range :=
  modifyGet fun w =>
    (⟨w.nextPos, w.nextPos + width⟩, { w with nextPos := w.nextPos + width + 1 })

/-- The name of a text. -/
def intern (text : String) : Build Name :=
  modifyGet fun w => match w with
    | ⟨nextId, nextPos, names, shelf⟩ =>
      match names.intern text with
      | (name, names) => (name, ⟨nextId, nextPos, names, shelf⟩)

/-- What spans all the ranges of a list. -/
def span (ranges : List Range) : Build Range := do
  match Range.span? (← get).nextPos ranges with
  | some range => pure range
  | none => throw .inverted

/-- A new leaf or node of a kind, at a range. -/
def info (kind : Kind) (range : Range) : Build Info := do
  return { kind, id := ← freshId, range }

/-- A node of a kind over leaves and children, which it spans. -/
def node (kind : Kind) (leaves : List Leaf) (children : List Node) (rank : Nat) : Build Node := do
  let range ← span (leaves.map Leaf.range ++ children.map Node.range)
  let info ← info kind range
  return .mk { info with leaves, rank } children

/-- A node of a kind at a range, without leaves and children. -/
def bareNode (kind : Kind) (range : Range) : Build Node := do
  let info ← info kind range
  return .mk { info with leaves := [], rank := 0 } []

/-- Takes a piece from the shelf. -/
def take (place : Nat) : Build Piece := do
  match (← get).shelf[place]? with
  | some (some piece) =>
    modify fun w => { w with shelf := w.shelf.setIfInBounds place none }
    return piece
  | _ => throw (.absent place)

/-- Puts a piece on the shelf. -/
def put (piece : Piece) : Build Unit :=
  modify fun w => { w with shelf := w.shelf.push (some piece) }

end Build

/-- How a leaf is written. -/
inductive Spelling where
  /-- A token of a kind, with the width of its text. -/
  | token (kind : Kind) (width : Nat)
  | identifier (text : String)
  | discard
deriving DecidableEq

namespace Spelling

/-- A token that has the fixed text of its kind. -/
def fixed (kind : Kind) : Spelling := token kind kind.width

/-- The number of positions that the leaf takes: the length of its text in bytes. -/
def width : Spelling → Nat
  | token _ width => width
  | identifier text => text.utf8ByteSize
  | discard => 1

/-- Writes the leaf at the next position. -/
def write (s : Spelling) : Build Leaf := do
  let range ← Build.stretch s.width
  let id ← Build.freshId
  match s with
  | token kind _ => return .token { kind, id, range }
  | identifier text => return .identifier { id, range, name := ← Build.intern text }
  | discard => return .discard id range

end Spelling

end InlineLocals
