import InlineLocals.Proofs.Scope.Invariant
import InlineLocals.Proofs.Syntax.Parent

/-!
# Scope — Footprint

What a build leaves behind.  It appends one scope to those there are, and when its search fails
that scope is empty, whatever was found before the failure.  The only other trace of a failure is
that the numbers of the symbols which were found are used up.

To say that this trace is harmless two builders are compared whose counters are some numbers apart
(`ScopeBuilder.Ahead`).  One more job ends for both of them alike and keeps them so, because a
search finds the same symbols whatever their numbers are (`Ahead.build`).  So whatever is built
after a failure is built as after a build that found nothing, with numbers that are ahead
(`build_footprint`).
-/

namespace InlineLocals

open LocalSymbol (number)

/-! ### Numbers that are ahead -/

namespace LocalSymbol

/-- The symbol under a number that is `n` larger. -/
def ahead (n : Nat) (x : LocalSymbol) : LocalSymbol := x.withId (x.id + n)

/-- Numbering from a later number on moves all numbers ahead. -/
theorem number_add (n : Nat) : ∀ (next : SymbolId) (xs : List LocalSymbol),
    number (next + n) xs = (number next xs).map (ahead n)
  | _, [] => rfl
  | next, x :: xs => by
      rw [number, number, List.map_cons, Nat.add_right_comm, number_add n (next + 1) xs]
      rfl

end LocalSymbol

open LocalSymbol (ahead)

/-- The second scope is the first with symbols under numbers that are `n` larger. -/
structure Scope.Ahead (n : Nat) (s s' : Scope) : Prop where
  id : s'.id = s.id
  parent : s'.parent = s.parent
  symbols : s'.symbols.toList = s.symbols.toList.map (ahead n)
  locals : ∀ name, s'.locals.get? name = (s.locals.get? name).map (· + n)

/-- A scope that holds the same symbols under later numbers is ahead by the difference. -/
theorem Scope.ahead_holding (n : Nat) (id : ScopeId) (parent : Option ScopeId)
    (xs : List LocalSymbol) :
    (holding id parent xs).Ahead n (holding id parent (xs.map (ahead n))) where
  id := (id_declareAll _ _).trans (id_declareAll _ _).symm
  parent := (parent_declareAll _ _).trans (parent_declareAll _ _).symm
  symbols := by rw [symbols_holding, symbols_holding]
  locals name := by
    have hname : ∀ x, (ahead n x).name = x.name := fun _ => rfl
    rw [(tabled_holding _ _ _).get?_locals, (tabled_holding _ _ _).get?_locals, symbols_holding,
      symbols_holding, LocalSymbol.latest?_map hname, Option.map_map, Option.map_map]
    rfl

/-! ### Builders that are ahead -/

namespace ScopeBuilder

variable {tree : Tree} {names : Names}

/-- How the jobs of a list end, one after the other. -/
def outcomes (tree : Tree) (names : Names) (b : ScopeBuilder) :
    List Job → List (Except ContextError ScopeId)
  | [] => []
  | job :: jobs =>
    let outcome := b.build tree names job.parent job.container
    outcome.1 :: outcomes tree names outcome.2 jobs

/-- The second builder has the first `base` scopes of the first, and the others too but for the
numbers of their symbols, which are `n` larger. -/
structure Ahead (base n : Nat) (b b' : ScopeBuilder) : Prop where
  nextSymbol : b'.nextSymbol = b.nextSymbol + n
  size : b'.scopes.size = b.scopes.size
  base_le : base ≤ b.scopes.size
  old : ∀ k < base, b'.scopes.get? k = b.scopes.get? k
  new : ∀ k s s', base ≤ k → b.scopes.get? k = some s → b'.scopes.get? k = some s' → s.Ahead n s'

/-- One more job ends for both builders alike, and keeps the second ahead of the first. -/
theorem Ahead.build {base n : Nat} {b b' : ScopeBuilder} (h : Ahead base n b b') (tree : Tree)
    (names : Names) (job : Job) :
    (b'.build tree names job.parent job.container).1 =
        (b.build tree names job.parent job.container).1 ∧
      Ahead base n (b.build tree names job.parent job.container).2
        (b'.build tree names job.parent job.container).2 := by
  obtain ⟨xs, r, hadds⟩ := exists_adds (Search.inScope tree names b.scopes.size job.parent) rfl
    job.container
  have hadds' := hadds
  rw [← h.size] at hadds'
  rw [b.build_eq hadds, b'.build_eq hadds', h.nextSymbol, h.size, LocalSymbol.number_add]
  refine ⟨rfl, ⟨Nat.add_right_comm _ _ _, ?_, ?_, fun k hk => ?_, fun k s s' hk hs hs' => ?_⟩⟩
  · simpa [Scopes.size] using h.size
  · simpa [Scopes.size] using Nat.le_succ_of_le h.base_le
  -- Old scopes are the same in both builders, and a push does not reach them.
  · have hne : k ≠ b.scopes.scopes.size := Nat.ne_of_lt (Nat.lt_of_lt_of_le hk h.base_le)
    have hne' : k ≠ b'.scopes.scopes.size := fun e => hne (e.trans h.size)
    rw [Scopes.get?, Scopes.get?, Array.getElem?_push, Array.getElem?_push, if_neg hne,
      if_neg hne']
    exact h.old k hk
  · have hsize : b'.scopes.scopes.size = b.scopes.scopes.size := h.size
    rw [Scopes.get?, Array.getElem?_push] at hs hs'
    rw [hsize] at hs'
    split at hs
    · next he =>
      rw [if_pos he] at hs'
      cases hs
      cases hs'
      exact Scope.ahead_holding n _ _ _
    · next he =>
      rw [if_neg he] at hs'
      exact h.new k s s' hk hs hs'

/-- Later jobs end for both builders alike, and keep the second ahead of the first. -/
theorem Ahead.buildAll {base n : Nat} : ∀ {b b' : ScopeBuilder} (_ : Ahead base n b b')
    (jobs : List Job), b'.outcomes tree names jobs = b.outcomes tree names jobs ∧
      Ahead base n (b.buildAll tree names jobs) (b'.buildAll tree names jobs)
  | _, _, h, [] => ⟨rfl, h⟩
  | _, _, h, job :: jobs => by
      obtain ⟨hend, hahead⟩ := h.build tree names job
      obtain ⟨hends, haheads⟩ := hahead.buildAll jobs
      exact ⟨congrArg₂ List.cons hend hends, haheads⟩

/-! ### One build -/

/-- A build that finds nothing appends an empty scope. -/
theorem build_nothing (b : ScopeBuilder) (parent : Option ScopeId) :
    b.build tree names parent (.statements []) = (.ok b.scopes.size,
      { scopes := ⟨b.scopes.scopes.push (.empty b.scopes.size parent)⟩
        nextSymbol := b.nextSymbol }) := by
  have hadds : Run.Adds ((Search.inScope tree names b.scopes.size parent).collect names
      (.statements [])) [] (.ok ()) := Run.adds_pure
  exact b.build_eq hadds

/-- **A build touches its own scope only.**  After a failure this scope is empty, and later jobs end
and build as after a build that found nothing, except that the numbers of symbols are some way
ahead. -/
theorem build_footprint (tree : Tree) (names : Names) (b : ScopeBuilder) (parent : Option ScopeId)
    (container : Container) :
    let (r, after) := b.build tree names parent container
    let (r₀, nothing) := b.build tree names parent (.statements [])
    (∃ scope, after.scopes.scopes = b.scopes.scopes.push scope ∧ scope.id = b.scopes.size ∧
      scope.parent = parent) ∧
    ∀ e, r = .error e →
      after.scopes.scopes = b.scopes.scopes.push (.empty b.scopes.size parent) ∧
      r₀ = .ok b.scopes.size ∧ nothing.scopes = after.scopes ∧
      ∃ n, ∀ jobs, after.outcomes tree names jobs = nothing.outcomes tree names jobs ∧
        Ahead after.scopes.size n (nothing.buildAll tree names jobs)
          (after.buildAll tree names jobs) := by
  obtain ⟨xs, r, hadds⟩ := exists_adds (Search.inScope tree names b.scopes.size parent) rfl
    container
  rw [b.build_eq hadds, b.build_nothing]
  refine ⟨⟨_, rfl, Scope.id_declareAll _ _, Scope.parent_declareAll _ _⟩, fun e he => ?_⟩
  cases r with
  | ok u => cases he
  | error e =>
      -- The symbols of the failed search are numbered all the same, and this is how far it is
      -- ahead.
      let scopes : Scopes := ⟨b.scopes.scopes.push (.empty b.scopes.size parent)⟩
      have hahead : Ahead scopes.size xs.length ⟨scopes, b.nextSymbol⟩
          ⟨scopes, b.nextSymbol + xs.length⟩ := by
        refine ⟨rfl, rfl, Nat.le_refl _, fun _ _ => rfl, fun k s s' hk hs _ => ?_⟩
        exact absurd (Array.getElem?_eq_some_iff.mp hs).1 (Nat.not_lt_of_le hk)
      exact ⟨rfl, rfl, rfl, xs.length, hahead.buildAll⟩

end ScopeBuilder

/-! ### The statements `int a; int _;`, of which the second is none -/

def sampleInt : Node :=
  .mk ⟨⟨.predefinedType, 1, ⟨0, 3⟩⟩, [.token ⟨.intKeyword, 0, ⟨0, 3⟩⟩], 0⟩ []

def sampleName : Node :=
  .mk ⟨⟨.variableDeclarator, 3, ⟨4, 5⟩⟩, [.identifier ⟨2, ⟨4, 5⟩, ⟨0⟩⟩], 0⟩ []

/-- The declaration `int a;`. -/
def sampleLocal : Node :=
  .mk ⟨⟨.localDeclarationStatement, 5, ⟨0, 5⟩⟩, [], 0⟩
    [.mk ⟨⟨.variableDeclaration, 4, ⟨0, 5⟩⟩, [], 0⟩ [sampleInt, sampleName]]

/-- The declaration `int _`, which stands in no argument. -/
def sampleStray : Node :=
  .mk ⟨⟨.declarationExpression, 9, ⟨6, 11⟩⟩, [.discard 8 ⟨10, 11⟩], 0⟩
    [.mk ⟨⟨.predefinedType, 7, ⟨6, 9⟩⟩, [.token ⟨.intKeyword, 6, ⟨6, 9⟩⟩], 0⟩ []]

def sampleStrayStatement : Node :=
  .mk ⟨⟨.expressionStatement, 10, ⟨6, 11⟩⟩, [], 0⟩ [sampleStray]

/-- The block `{ int a; int _; }`. -/
def sampleMalformed : Node :=
  .mk ⟨⟨.block, 11, ⟨0, 11⟩⟩, [], 0⟩ [sampleLocal, sampleStrayStatement]

def sampleMalformedSearch : Search.Locals := .inScope (.ofRoot sampleMalformed) .empty 0 none

/-- The way up ends at the statement, which is no argument. -/
theorem declaringCall_sampleStray : sampleMalformedSearch.tree.declaringCall sampleStray =
    .error ⟨some .expressionStatement, 6⟩ := by
  have hparent : (Tree.ofRoot sampleMalformed).parent? sampleStray = some sampleStrayStatement := by
    rw [Tree.parent?_ofRoot]
    simp [sampleMalformed, sampleLocal, sampleInt, sampleName, sampleStrayStatement, sampleStray,
      Node.nodes, Node.nodesAll, Tree.getElem?_recordChildren, Node.children, Node.id, Node.label]
  show (Tree.ofRoot sampleMalformed).declaringCall sampleStray = _
  rw [Tree.declaringCall, Tree.expectParent, hparent]
  rfl

/-- The first statement adds its variable. -/
theorem adds_sampleLocal : Run.Adds (sampleMalformedSearch.collectStatement .empty sampleLocal)
    [(LocalSymbol.regular .empty 0 sampleInt ⟨2, ⟨4, 5⟩, ⟨0⟩⟩ 0).1] (.ok ()) := by
  have hvisit : sampleMalformedSearch.visit sampleName = pure () := by
    simp [Search.visit_eq, Search.visitAll_nil, sampleName, Node.searched, Node.kind, Node.label,
      Node.children, Search.report, Node.site?]
  have hdeclarator : sampleMalformedSearch.collectDeclarator .empty sampleInt sampleName = (do
      Search.append (LocalSymbol.regular .empty 0 sampleInt ⟨2, ⟨4, 5⟩, ⟨0⟩⟩)
      sampleMalformedSearch.visit sampleName) := rfl
  have hstatement : sampleMalformedSearch.collectStatement .empty sampleLocal = (do
      sampleMalformedSearch.collectDeclarator .empty sampleInt sampleName
      pure ()) := rfl
  rw [hstatement, hdeclarator, hvisit]
  exact ((Search.adds_regular _ _ _ _).bind Run.adds_pure).bind Run.adds_pure

/-- The second one adds nothing and fails. -/
theorem adds_sampleStrayStatement :
    Run.Adds (sampleMalformedSearch.collectStatement .empty sampleStrayStatement) []
      (.error ⟨some .expressionStatement, 6⟩) := by
  have hrequest : sampleMalformedSearch.request sampleStray =
      .error ⟨some .expressionStatement, 6⟩ := by
    show (sampleMalformedSearch.tree.declaringCall sampleStray >>= fun _ => pure _) = _
    rw [declaringCall_sampleStray]
    rfl
  have hfactory : sampleMalformedSearch.factory = LocalSymbol.factory .empty := rfl
  have hreport := Search.adds_report hfactory sampleStray
  rw [hrequest] at hreport
  have htype : sampleMalformedSearch.visitAll sampleStray.searched = pure () := by
    simp [Search.visitAll_cons, Search.visitAll_nil, Search.visit_eq, sampleStray, Node.searched,
      Node.kind, Node.label, Node.children, Search.report, Node.site?]
  have hstray : sampleMalformedSearch.visit sampleStray =
      sampleMalformedSearch.report sampleStray := by
    rw [Search.visit_eq, htype]
    rfl
  have hsearched : sampleStrayStatement.searched = [sampleStray] := rfl
  show Run.Adds (sampleMalformedSearch.visit sampleStrayStatement) _ _
  rw [Search.visit_eq, hsearched, Search.visitAll_cons, hstray]
  exact hreport.bind_error.bind_error

namespace ScopeBuilder

/-- The variable `a` is found before the failure, and is not declared. -/
theorem build_footprint_sampleMalformed :
    let (r, after) := build {} (.ofRoot sampleMalformed) .empty none
      (.statements sampleMalformed.children)
    r = .error ⟨some .expressionStatement, 6⟩ ∧ after.nextSymbol = 1 ∧
      after.scopes.scopes = #[.empty 0 none] := by
  have hadds : Run.Adds (sampleMalformedSearch.collect .empty
      (.statements sampleMalformed.children)) _ (.error ⟨some .expressionStatement, 6⟩) :=
    adds_sampleLocal.bind adds_sampleStrayStatement.bind_error
  have hbuild := build_eq {} hadds
  have hfails := (build_footprint (.ofRoot sampleMalformed) .empty {} none
    (.statements sampleMalformed.children)).2 _ (congrArg Prod.fst hbuild)
  exact ⟨congrArg Prod.fst hbuild, congrArg (·.2.nextSymbol) hbuild, hfails.1⟩

end ScopeBuilder

end InlineLocals
