import InlineLocals.Text.NamePool
import InlineLocals.Syntax.Form
import InlineLocals.Scope.Builder
import InlineLocals.Proofs.Syntax.Building
import InlineLocals.Proofs.Syntax.Evaluation
import InlineLocals.Proofs.Syntax.Path
import InlineLocals.Proofs.Declaration.Chain
import InlineLocals.Proofs.Syntax.Shape
import InlineLocals.Proofs.Declaration.Bracketing
import InlineLocals.Proofs.Declaration.Found
import InlineLocals.Proofs.Declaration.Outcome
import InlineLocals.Proofs.Scope.Building
import InlineLocals.Proofs.Scope.Latest
import InlineLocals.Proofs.Scope.Invariant
import InlineLocals.Proofs.Scope.Registered
import InlineLocals.Proofs.Syntax.Layout
import InlineLocals.Proofs.Declaration.Confined
import InlineLocals.Proofs.Scope.Home
import InlineLocals.Proofs.Syntax.Outline
import InlineLocals.Proofs.Declaration.Twin
import InlineLocals.Proofs.Scope.Suppression
import InlineLocals.Proofs.Syntax.Numbering
import InlineLocals.Proofs.Text.Span
import InlineLocals.Proofs.Declaration.Designations
import InlineLocals.Proofs.Declaration.Ascending
import InlineLocals.Proofs.Syntax.Extent
import InlineLocals.Proofs.Syntax.Navigation
import InlineLocals.Proofs.Scope.Footprint
import InlineLocals.Proofs.Scope.Environment
import InlineLocals.Proofs.Scope.Resolution
import InlineLocals.Proofs.Declaration.Recording
import InlineLocals.Proofs.Scope.Exchange
import InlineLocals.Proofs.Scope.Walking
import InlineLocals.Proofs.Declaration.InTurn
import InlineLocals.Proofs.Declaration.Enlarging
import InlineLocals.Proofs.Syntax.Script
import InlineLocals.Proofs.Symbol.Session
import InlineLocals.Proofs.Syntax.Ledger
import InlineLocals.Proofs.Syntax.Naming
import InlineLocals.Proofs.Syntax.SourceOrder
import InlineLocals.Proofs.Text.Interner
import InlineLocals.Proofs.Syntax.Anatomy
import InlineLocals.Proofs.Declaration.Arms
import InlineLocals.Proofs.Syntax.Capacity
import InlineLocals.Proofs.Scope.Capacity
