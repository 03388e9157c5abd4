import InlineLocals.Proofs.Declaration.CallSite
import InlineLocals.Proofs.Scope.Building
import InlineLocals.Proofs.Scope.Latest

/-!
# Scope — Invariant

What holds of a scope builder after any list of jobs, whether they succeed or fail.  The scope at a
place is that of the job at this place; its symbols belong to it and say so (`Scope.Sound`).  One
counter numbers the symbols of all scopes, and a job that fails uses numbers up; still the numbers
increase through all scopes (`ScopeBuilder.increasing_buildAll`).  So no two symbols share a number,
which is what the search of a scope by name relies on.
-/

namespace InlineLocals

open LocalSymbol (number withId latest?)
open Search (sampleTest sampleVar)

/-! ### The symbols of a scope -/

/-- The symbol belongs to the scope.  A variable declared in an argument, and no other, has a call
and is told the scope around. -/
structure LocalSymbol.Placed (scope : ScopeId) (told : Option ScopeId) (x : LocalSymbol) :
    Prop where
  scope : x.scope = scope
  enclosing : x.enclosing = if x.kind = .outVariable then told else none
  declaringCall : x.declaringCall.isSome = true ↔ x.kind = .outVariable

namespace LocalSymbol

theorem Placed.withId {scope : ScopeId} {told : Option ScopeId} {x : LocalSymbol}
    (h : x.Placed scope told) (id : SymbolId) : (x.withId id).Placed scope told :=
  ⟨h.scope, h.enclosing, h.declaringCall⟩

theorem placed_regular (names : Names) (scope : ScopeId) (told : Option ScopeId) (type : Node)
    (i : Identifier) (next : SymbolId) : (regular names scope type i next).1.Placed scope told :=
  ⟨rfl, rfl, by simp [regular]⟩

end LocalSymbol

namespace Search

/-- A report asks for a variable of the scope, and tells the scope around for one in an
argument. -/
theorem placed_symbol_of_request {s : Locals} {names : Names} {n : Node} {call : Call}
    (h : s.request n = .ok (some call)) : (call.symbol names).Placed s.scope s.enclosing := by
  unfold request at h
  split at h
  · cases h
  · next designation _ _ =>
    cases hn : designation.identifier? with
    | none => simp [hn] at h
    | some i =>
        simp only [hn, Option.map_some, Except.ok.injEq, Option.some.injEq] at h
        subst h
        exact ⟨rfl, rfl, by simp [Call.symbol, Call.replay, LocalSymbol.factory]⟩
  · next designation _ =>
    cases hc : s.tree.declaringCall n with
    | error e => rw [hc] at h; cases h
    | ok c =>
        rw [hc] at h
        cases hn : designation.identifier? with
        | none => rw [hn] at h; cases h
        | some i =>
            rw [hn] at h
            cases h
            exact ⟨rfl, rfl, by simp [Call.symbol, Call.replay, LocalSymbol.factory]⟩

/-- The search of a container adds only symbols of the scope. -/
theorem addsOnly_placed {s : Locals} {names : Names} (hs : s.factory = LocalSymbol.factory names)
    (container : Container) :
    Run.AddsOnly (LocalSymbol.Placed s.scope (container.told s.enclosing))
      (s.collect names container) := by
  let told : Locals := { s with enclosing := container.told s.enclosing }
  refine addsOnly_collect (fun type i => LocalSymbol.placed_regular names s.scope _ type i 0) ?_
  intro n
  exact addsOnly_report (s := told) hs fun _ h => placed_symbol_of_request h

end Search

/-! ### The scope of a job -/

/-- The scope with a number that a job made. -/
structure Scope.Sound (s : Scope) (k : ScopeId) (job : ScopeBuilder.Job) : Prop where
  id : s.id = k
  parent : s.parent = job.parent
  scope : ∀ x ∈ s.symbols, x.scope = k
  /-- The scope around is told to variables in arguments only, and to all of these. -/
  enclosing : ∀ x ∈ s.symbols, x.enclosing =
    if x.kind = .outVariable then job.container.told s.parent else none
  declaringCall : ∀ x ∈ s.symbols, x.declaringCall.isSome = true ↔ x.kind = .outVariable
  /-- The names in the table are those of the symbols. -/
  contains : ∀ name, s.locals.contains name = true ↔ ∃ x ∈ s.symbols, x.name = name
  /-- The table has the number of the symbol declared last under a name. -/
  locals : ∀ name id, s.locals.get? name = some id ↔ ∃ x, s.Latest name x ∧ x.id = id
  /-- The symbol that is found by a name is the one declared last under it. -/
  get? : ∀ name x, s.get? name = some x ↔ s.Latest name x

namespace Scope

theorem tabled_holding (id : ScopeId) (parent : Option ScopeId) (xs : List LocalSymbol) :
    (holding id parent xs).Tabled where
  get?_locals name := by
    rw [symbols_holding, holding, get?_locals_declareAll]
    simp [empty, SymbolTable.get?_empty]

/-- Symbols that are numbered one after the other have a number each. -/
theorem eq_of_id_eq_of_mem_holding {id : ScopeId} {parent : Option ScopeId} {next : SymbolId}
    {xs : List LocalSymbol} {x y : LocalSymbol}
    (hx : x ∈ (holding id parent (number next xs)).symbols)
    (hy : y ∈ (holding id parent (number next xs)).symbols) (h : x.id = y.id) : x = y := by
  refine List.inj_on_of_nodup_map ?_ (mem_symbols_holding.mp hx) (mem_symbols_holding.mp hy) h
  rw [LocalSymbol.map_id_number]
  exact List.nodup_range'

theorem sound_holding {k : ScopeId} {job : ScopeBuilder.Job} {next : SymbolId}
    {xs : List LocalSymbol}
    (h : ∀ x ∈ (holding k job.parent (number next xs)).symbols,
      x.Placed k (job.container.told job.parent)) :
    (holding k job.parent (number next xs)).Sound k job := by
  have hparent : (holding k job.parent (number next xs)).parent = job.parent :=
    parent_declareAll _ _
  have htable := tabled_holding k job.parent (number next xs)
  exact {
    id := id_declareAll _ _
    parent := hparent
    scope := fun x hx => (h x hx).scope
    enclosing := fun x hx => by rw [hparent]; exact (h x hx).enclosing
    declaringCall := fun x hx => (h x hx).declaringCall
    contains := fun name => htable.contains_iff
    locals := fun name id => htable.get?_locals_eq_some_iff
    get? := fun name x => htable.get?_eq_some_iff_latest fun x hx y hy hid => by
      rw [eq_of_id_eq_of_mem_holding hx hy hid] }

end Scope

/-! ### All scopes -/

namespace ScopeBuilder

variable {tree : Tree} {names : Names}

/-- The symbols of all scopes, scope by scope. -/
def symbols (b : ScopeBuilder) : List LocalSymbol :=
  b.scopes.scopes.toList.flatMap (·.symbols.toList)

/-- The numbers increase from symbol to symbol through all scopes, and the next one is larger than
all of them. -/
structure Increasing (b : ScopeBuilder) : Prop where
  pairwise : (b.symbols.map (·.id)).Pairwise (· < ·)
  lt_nextSymbol : ∀ x ∈ b.symbols, x.id < b.nextSymbol

/-- The numbers of a new scope begin where the old ones end. -/
theorem Increasing.build {b : ScopeBuilder} (h : b.Increasing) (job : Job) :
    (b.build tree names job.parent job.container).2.Increasing := by
  obtain ⟨xs, r, hadds⟩ := exists_adds (Search.inScope tree names b.scopes.size job.parent) rfl
    job.container
  have hsymbols : (b.build tree names job.parent job.container).2.symbols =
      b.symbols ++ number b.nextSymbol (Scope.kept xs r) := by
    simp [b.build_eq hadds, symbols, Scope.symbols_holding]
  have hnext : (b.build tree names job.parent job.container).2.nextSymbol =
      b.nextSymbol + xs.length := by rw [b.build_eq hadds]
  have hlen : (Scope.kept xs r).length ≤ xs.length := by cases r <;> simp [Scope.kept]
  -- The new numbers begin at the counter, and the counter moves past all of them.
  have bounds {id : SymbolId} (hid : id ∈ (number b.nextSymbol (Scope.kept xs r)).map (·.id)) :
      b.nextSymbol ≤ id ∧ id < b.nextSymbol + xs.length := by
    rw [LocalSymbol.map_id_number, List.mem_range'_1] at hid
    exact ⟨hid.1, Nat.lt_of_lt_of_le hid.2 (Nat.add_le_add_left hlen _)⟩
  constructor
  · rw [hsymbols, List.map_append, List.pairwise_append]
    refine ⟨h.pairwise, ?_, fun m hm n hn => ?_⟩
    · rw [LocalSymbol.map_id_number]
      exact List.pairwise_lt_range'
    · obtain ⟨x, hx, rfl⟩ := List.mem_map.mp hm
      exact Nat.lt_of_lt_of_le (h.lt_nextSymbol x hx) (bounds hn).1
  · intro x hx
    rw [hsymbols, List.mem_append] at hx
    rw [hnext]
    rcases hx with hx | hx
    · exact Nat.lt_of_lt_of_le (h.lt_nextSymbol x hx) (Nat.le_add_right _ _)
    · exact (bounds (List.mem_map_of_mem hx)).2

theorem increasing_buildAll (jobs : List Job) : (buildAll tree names {} jobs).Increasing :=
  buildAll_induction (P := fun b _ => b.Increasing) ⟨.nil, nofun⟩ (fun _ _ job h => h.build job)
    jobs

/-- What holds after a list of jobs. -/
structure Sound (b : ScopeBuilder) (jobs : List Job) : Prop where
  size : b.scopes.size = jobs.length
  scope : ∀ k s, b.scopes.get? k = some s → ∃ job, jobs[k]? = some job ∧ s.Sound k job
  increasing : (b.symbols.map (·.id)).Pairwise (· < ·)

/-- **The invariant of the builder**, for every list of jobs. -/
theorem sound_buildAll (tree : Tree) (names : Names) (jobs : List Job) :
    (buildAll tree names {} jobs).Sound jobs where
  size := (traced_buildAll jobs).size
  scope k s h := by
    obtain ⟨job, next, xs, r, hjob, hadds, rfl⟩ := (traced_buildAll jobs).exists_job k s h
    have hplaced := Search.addsOnly_placed (Search.factory_inScope tree names k job.parent)
      job.container
    exact ⟨job, hjob, Scope.sound_holding
      (Scope.forall_mem_holding (fun x id h => h.withId id) hadds hplaced k job.parent next)⟩
  increasing := (increasing_buildAll jobs).pairwise

/-! ### The block `{ this is var x; this is var x; { this(out int x); } }` -/

section

/-- The statement `this is var x;` at a position, whose nodes are numbered from `id` on. -/
def sampleVarTest (id : NodeId) (pos : Nat) (x : Name) : Node :=
  .mk ⟨⟨.expressionStatement, id + 4, ⟨pos, pos + 6⟩⟩, [], 0⟩
    [.mk ⟨⟨.isPatternExpression, id + 3, ⟨pos, pos + 6⟩⟩, [], 0⟩
      [.mk ⟨⟨.thisExpression, id, ⟨pos, pos + 4⟩⟩, [], 0⟩ [],
        .mk ⟨⟨.varPattern, id + 2, ⟨pos + 5, pos + 6⟩⟩,
          [.identifier ⟨id + 1, ⟨pos + 5, pos + 6⟩, x⟩], 0⟩ []]]

variable (x y z : Name)

def sampleOutType : Node :=
  .mk ⟨⟨.predefinedType, 15, ⟨19, 22⟩⟩, [.token ⟨.intKeyword, 14, ⟨19, 22⟩⟩], 0⟩ []

def sampleOutDeclaration : Node :=
  .mk ⟨⟨.declarationExpression, 17, ⟨19, 24⟩⟩, [.identifier ⟨16, ⟨23, 24⟩, x⟩], 0⟩ [sampleOutType]

def sampleOutArgument : Node :=
  .mk ⟨⟨.argument, 19, ⟨19, 28⟩⟩, [.token ⟨.outKeyword, 18, ⟨25, 28⟩⟩], 0⟩ [sampleOutDeclaration x]

def sampleOutList : Node :=
  .mk ⟨⟨.argumentList, 20, ⟨19, 28⟩⟩, [], 0⟩ [sampleOutArgument x]

def sampleOutCall : Node :=
  .mk ⟨⟨.invocationExpression, 21, ⟨14, 28⟩⟩, [], 0⟩
    [.mk ⟨⟨.thisExpression, 13, ⟨14, 18⟩⟩, [], 0⟩ [], sampleOutList x]

def sampleOutStatement : Node :=
  .mk ⟨⟨.expressionStatement, 22, ⟨14, 28⟩⟩, [], 0⟩ [sampleOutCall x]

def sampleShadowingBlock : Node :=
  .mk ⟨⟨.block, 23, ⟨14, 28⟩⟩, [], 0⟩ [sampleOutStatement x]

def sampleShadowing : Node :=
  .mk ⟨⟨.block, 24, ⟨0, 28⟩⟩, [], 0⟩
    [sampleVarTest 1 0 x, sampleVarTest 7 7 y, sampleShadowingBlock z]

/-- A scope for the block, and one below it for the block within. -/
def sampleJobs : List Job :=
  [⟨none, .statements (sampleShadowing x x x).children⟩,
    ⟨some 0, .statements (sampleShadowingBlock x).children⟩]

/-- The variable of the pattern that stands at the position. -/
def sampleTested (id : SymbolId) (pos : Nat) : LocalSymbol where
  id := id
  name := x
  kind := .patternVariable
  scope := 0
  enclosing := none
  type := none
  implicit := true
  range := ⟨pos, pos + 1⟩
  declaringCall := none

/-- The variable in the argument. -/
def sampleShadowingVariable : LocalSymbol where
  id := 2
  name := x
  kind := .outVariable
  scope := 1
  enclosing := some 0
  type := some 15
  implicit := false
  range := ⟨23, 24⟩
  declaringCall := some 21

end

def sampleShadowingForm : Form :=
  let test : Form := .make .expressionStatement [[sampleTest (sampleVar "x")]]
  let call : Form := .invocation (.make .thisExpression [])
    [.outDeclaration (.predefinedType .intKeyword) "x"]
  .make .block [[test, test, .make .block [[.make .expressionStatement [[call]]]]]]

theorem run_shelve_sampleShadowingForm (names : Names) :
    let x := names.intern "x"
    let y := x.2.intern "x"
    let z := y.2.intern "x"
    (Workshop.shelve [sampleShadowingForm]).run { names } =
      .ok ((), ⟨25, 29, z.2, #[some (.node (sampleShadowing x.1 y.1 z.1))]⟩) := by
  intro x y z
  conv => lhs; cbv
  rfl

/-- The three declared names are one. -/
theorem ofForms_sampleShadowingForm : Workshop.ofForms [sampleShadowingForm] =
    let x := Names.empty.intern "x"
    .ok ⟨25, 29, x.2, #[some (.node (sampleShadowing x.1 x.1 x.1))]⟩ := by
  rw [Workshop.ofForms, run_shelve_sampleShadowingForm]
  simp only [Names.intern_intern]
  rfl

/-- The statement adds the variable of its pattern. -/
theorem adds_sampleVarTest (tree : Tree) (names : Names) (id : NodeId) (pos : Nat) (x : Name) :
    Run.Adds ((Search.inScope tree names 0 none).collectStatement names (sampleVarTest id pos x))
      [sampleTested x 0 (pos + 5)] (.ok ()) := by
  let s := Search.inScope tree names 0 none
  have hvisit : s.visit (sampleVarTest id pos x) = Search.append (s.factory.patternVariable 0 none
      ⟨id + 1, ⟨pos + 5, pos + 6⟩, x⟩ ⟨pos + 5, pos + 6⟩) := by
    simp [Search.visit_eq, Search.visitAll_cons, Search.visitAll_nil, sampleVarTest, Node.searched,
      Node.kind, Node.label, Node.children, Search.report, Node.site?, Node.leaves,
      Leaf.identifier?]
    rfl
  show Run.Adds (s.visit _) _ _
  rw [hvisit]
  exact Run.adds_append (x := sampleTested x 0 (pos + 5)) fun _ => rfl

/-- The statement adds the variable in the argument, with the call above it. -/
theorem adds_sampleOutStatement {tree : Tree} (names : Names) {x : Name}
    (hcall : tree.declaringCall (sampleOutDeclaration x) = .ok (sampleOutCall x)) :
    Run.Adds ((Search.inScope tree names 1 (some 0)).collectStatement names (sampleOutStatement x))
      [{ sampleShadowingVariable x with id := 0 }] (.ok ()) := by
  let s := Search.inScope tree names 1 (some 0)
  have hvisit : s.visit (sampleOutStatement x) = s.report (sampleOutDeclaration x) := by
    simp [Search.visit_eq, Search.visitAll_cons, Search.visitAll_nil, sampleOutStatement,
      sampleOutCall, sampleOutList, sampleOutArgument, sampleOutDeclaration, sampleOutType,
      Node.searched, Node.kind, Node.label, Node.children, Search.report, Node.site?, Node.leaves,
      Node.type?, Leaf.identifier?]
  have hrequest : s.request (sampleOutDeclaration x) =
      .ok (some (.out 1 (some 0) sampleOutType ⟨16, ⟨23, 24⟩, x⟩ (sampleOutCall x))) := by
    show (tree.declaringCall (sampleOutDeclaration x) >>= fun _ => pure _) = _
    rw [hcall]
    rfl
  have hreport := Search.adds_report (s := s) rfl (sampleOutDeclaration x)
  rw [hrequest] at hreport
  show Run.Adds (s.visit _) _ _
  rw [hvisit]
  exact hreport

/-- The outer scope has both variables under one name and finds the second one.  The inner scope
has the variable in the argument, which knows its call and the scope around. -/
theorem sound_buildAll_sampleShadowing : ∃ (w : Workshop) (x : Name),
    Workshop.ofForms [sampleShadowingForm] = .ok w ∧ w.Holds (sampleShadowing x x x) ∧
      let b := buildAll (.ofRoot (sampleShadowing x x x)) w.names {} (sampleJobs x)
      b.Sound (sampleJobs x) ∧
      b.symbols = [sampleTested x 0 5, sampleTested x 1 12, sampleShadowingVariable x] ∧
      ∃ outer inner, b.scopes.get? 0 = some outer ∧ b.scopes.get? 1 = some inner ∧
        outer.get? x = some (sampleTested x 1 12) ∧
        inner.get? x = some (sampleShadowingVariable x) := by
  let x := (Names.empty.intern "x").1
  let names := (Names.empty.intern "x").2
  let root := sampleShadowing x x x
  let tree := Tree.ofRoot root
  let w : Workshop := ⟨25, 29, names, #[some (.node root)]⟩
  have built : Workshop.ofForms [sampleShadowingForm] = .ok w := ofForms_sampleShadowingForm
  have held : w.Holds root := ⟨root, List.mem_singleton_self _, .refl _⟩
  have hcall : tree.declaringCall (sampleOutDeclaration x) = .ok (sampleOutCall x) := by
    rw [Tree.declaringCall_eq_ok_iff_climbs built held (held.within ⟨[2, 0, 0, 1, 0, 0], rfl⟩),
      Tree.climbs_callShape_iff built held]
    exact ⟨⟨[2, 0, 0], rfl⟩, rfl, sampleOutList x, by simp [sampleOutCall, Node.children], rfl,
      sampleOutArgument x, List.mem_singleton_self _, rfl, rfl⟩
  have houter : Run.Adds ((Search.inScope tree names 0 none).collect names
      (.statements root.children)) [sampleTested x 0 5, sampleTested x 0 12] (.ok ()) :=
    (adds_sampleVarTest tree names 1 0 x).bind ((adds_sampleVarTest tree names 7 7 x).bind
      -- The block is a container of its own, so its variable is not collected here.
      (Run.adds_pure.bind Run.adds_pure))
  have hinner : Run.Adds ((Search.inScope tree names 1 (some 0)).collect names
      (.statements (sampleShadowingBlock x).children))
      [{ sampleShadowingVariable x with id := 0 }] (.ok ()) :=
    (adds_sampleOutStatement names hcall).bind Run.adds_pure
  let outer : Scope := .holding 0 none [sampleTested x 0 5, sampleTested x 1 12]
  let inner : Scope := .holding 1 (some 0) [sampleShadowingVariable x]
  have run : buildAll tree names {} (sampleJobs x) = ⟨⟨#[outer, inner]⟩, 3⟩ := by
    show ((build {} tree names _ _).2.build tree names _ _).2 = _
    rw [build_eq {} houter, build_eq _ hinner]
    rfl
  have sound := sound_buildAll tree names (sampleJobs x)
  rw [run] at sound
  obtain ⟨_, ⟨⟩, outerSound⟩ := sound.scope 0 outer rfl
  obtain ⟨_, ⟨⟩, innerSound⟩ := sound.scope 1 inner rfl
  refine ⟨w, x, built, held, ?_⟩
  rw [run]
  exact ⟨sound, rfl, outer, inner, rfl, rfl,
    (outerSound.get? x _).mpr ⟨[sampleTested x 0 5], [], rfl, rfl, by simp⟩,
    (innerSound.get? x _).mpr ⟨[], [], rfl, rfl, by simp⟩⟩

end ScopeBuilder

end InlineLocals
