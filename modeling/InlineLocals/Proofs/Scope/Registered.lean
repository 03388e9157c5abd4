import InlineLocals.Proofs.Declaration.Arms
import InlineLocals.Proofs.Scope.Building

/-!
# Scope — Registered

What a build registers, told by searches that know nothing of one another.  A search by itself
starts with nothing found (`Run.alone`); the listing of a container puts such searches one after
the other (`Search.registered`), with one variable for every declarator before the search of its
initial value.  A build goes through exactly when the listing does, and then the scope holds what
is listed.

A declaration statement can also be searched as a whole.  Its declarators are then searched as
children, and the type before them declares nothing (`visit_localDeclaration`), so the variables in
expressions are those that the searches of whole statements find (`build_registered`).
-/

namespace InlineLocals

open LocalSymbol (number withId)
open Run (Adds)

namespace LocalSymbol

/-- The variable is declared inside an expression. -/
def inExpression (x : LocalSymbol) : Bool := x.kind != .regularVariable

/-- The symbols without their numbers. -/
def unnumbered (xs : List LocalSymbol) : List LocalSymbol := xs.map (·.withId 0)

theorem unnumbered_number (next : SymbolId) (xs : List LocalSymbol) :
    unnumbered (number next xs) = unnumbered xs :=
  map_number (fun _ _ => rfl) next xs

theorem unnumbered_append (xs ys : List LocalSymbol) :
    unnumbered (xs ++ ys) = unnumbered xs ++ unnumbered ys :=
  List.map_append

/-- Whether a variable is declared in an expression does not depend on its number. -/
theorem unnumbered_filter_number : ∀ (next : SymbolId) (xs : List LocalSymbol),
    unnumbered ((number next xs).filter inExpression) = unnumbered (xs.filter inExpression)
  | _, [] => rfl
  | next, x :: xs => by
      have ih := unnumbered_filter_number (next + 1) xs
      have hx : (x.withId next).inExpression = x.inExpression := rfl
      rw [number, List.filter_cons, List.filter_cons, hx]
      split
      · exact congrArg (x.withId 0 :: ·) ih
      · exact ih

end LocalSymbol

open LocalSymbol (inExpression unnumbered unnumbered_number unnumbered_append
  unnumbered_filter_number)

/-! ### Listings -/

/-- Finds symbols, numbered on from the state, or fails. -/
abbrev Listing := StateT SymbolId (Except ContextError) (List LocalSymbol)

/-- What the run finds by itself, with nothing found before it. -/
def Run.alone (x : Run SymbolId LocalSymbol Unit) : Listing := fun next =>
  match x.run ⟨#[], next⟩ with
  | .ok () progress => .ok (progress.found.toList, progress.state)
  | .error e _ => .error e

namespace Listing

/-- A listing for each node of a list, one after the other. -/
def concat (list : Node → Listing) : List Node → Listing
  | [] => pure []
  | n :: ns => do
    let xs ← list n
    return xs ++ (← concat list ns)

/-- Whatever the next number, these symbols are listed, and this is the end. -/
def Lists (y : Listing) (xs : List LocalSymbol) (r : Except ContextError Unit) : Prop :=
  ∀ next, y.run next = r.map fun _ => (number next xs, next + xs.length)

theorem lists_nothing : Lists (pure []) [] (.ok ()) := fun _ => rfl

variable {x y : Listing} {xs ys : List LocalSymbol} {r : Except ContextError Unit}

/-- A listing after another one goes on with its numbers. -/
theorem Lists.append (hx : x.Lists xs (.ok ())) (hy : y.Lists ys r) :
    Lists (do return (← x) ++ (← y)) (xs ++ ys) r := by
  intro next
  rw [StateT.run_bind, hx next]
  show (do let b ← y.run (next + xs.length); pure (number next xs ++ b.1, b.2)) = _
  rw [hy (next + xs.length), LocalSymbol.number_append, List.length_append, ← Nat.add_assoc]
  cases r <;> rfl

/-- After a failure nothing is listed. -/
theorem Lists.append_error {e : ContextError} (hx : x.Lists xs (.error e)) :
    Lists (do return (← x) ++ (← y)) xs (.error e) := by
  intro next
  rw [StateT.run_bind, hx next]
  rfl

/-- A run by itself lists the symbols that it adds. -/
theorem lists_alone {x : Run SymbolId LocalSymbol Unit} (h : Adds x xs r) : Lists x.alone xs r := by
  intro next
  show x.alone next = _
  rw [Run.alone, h ⟨#[], next⟩]
  cases r with
  | error e => rfl
  | ok u => simp [Progress.ending, Progress.adding, Except.map]

end Listing

open Listing (Lists)

/-! ### The listing of a container -/

/-- The expressions that are the arguments of a call to another constructor. -/
def Node.argumentExpressions (n : Node) : List Node :=
  n.children.flatMap fun list => list.children.flatMap Node.children

namespace Search

/-- The variable of a declarator, and then what a search of its initial value finds. -/
def declared (s : Locals) (names : Names) (type declarator : Node) : Listing := do
  let own ← match declarator.identifier? with
    | some i => (append (LocalSymbol.regular names s.scope type i)).alone
    | none => pure []
  return own ++ (← (s.find declarator.children.head?).alone)

/-- The variables of a statement: those of its declarators one after the other, or else what a
search of the statement finds when it hosts variables. -/
def registeredBy (s : Locals) (names : Names) (statement : Node) : Listing :=
  match statement.kind, statement.children with
  | .localDeclarationStatement, [.mk _ (type :: declarators)] =>
    .concat (s.declared names type) declarators
  | kind, _ => if kind.hostsVariables then (s.find (some statement)).alone else pure []

/-- The variables of a container. -/
def registered (s : Locals) (names : Names) : Container → Listing
  | .statements statements => .concat (s.registeredBy names) statements
  | .switchSection node => do
    let labels ← (s.find (some node)).alone
    return labels ++
      (← Listing.concat (s.registeredBy names) (node.children.filter (·.kind.isStatement)))
  | .constructorInitializer node => (s.findInList node.argumentExpressions).alone

end Search

/-- The statement declares variables in the scope around it, itself or in its expressions. -/
def Node.hosts (statement : Node) : Bool :=
  statement.kind == .localDeclarationStatement || statement.kind.hostsVariables

namespace Container

/-- The nodes of the tree that the container is made of. -/
def nodes : Container → List Node
  | .statements ns => ns
  | .switchSection node | .constructorInitializer node => [node]

/-- The nodes in which a search finds the variables that the container has in its expressions. -/
def hosts : Container → List Node
  | .statements ns => ns.filter Node.hosts
  | .switchSection node =>
    node :: (node.children.filter (·.kind.isStatement)).filter Node.hosts
  | .constructorInitializer node => node.argumentExpressions

end Container

/-! ### Three accounts of the same symbols -/

/-- The run adds the symbols that the listing lists, and the search finds those of them that are
declared inside expressions.  All three end alike. -/
structure Run.Accounts (x : Run SymbolId LocalSymbol Unit) (y : Listing)
    (z : Run SymbolId LocalSymbol Unit) (xs : List LocalSymbol) (r : Except ContextError Unit) :
    Prop where
  added : Adds x xs r
  listed : y.Lists xs r
  found : Adds z (xs.filter inExpression) r

namespace Run

theorem accounts_nothing : Accounts (pure ()) (pure []) (pure ()) [] (.ok ()) :=
  ⟨adds_pure, Listing.lists_nothing, adds_pure⟩

/-- Accounts compose, step by step. -/
theorem Accounts.append {x x' z z' : Run SymbolId LocalSymbol Unit} {y y' : Listing}
    {xs ys : List LocalSymbol} {r r' : Except ContextError Unit} (h : Accounts x y z xs r)
    (h' : Accounts x' y' z' ys r') :
    ∃ xs r, Accounts (do x; x') (do return (← y) ++ (← y')) (do z; z') xs r := by
  cases r with
  | error e =>
      exact ⟨xs, .error e, h.added.bind_error, h.listed.append_error, h.found.bind_error⟩
  | ok u =>
      refine ⟨xs ++ ys, r', h.added.bind h'.added, h.listed.append h'.listed, ?_⟩
      rw [List.filter_append]
      exact h.found.bind h'.found

/-- So do the accounts of all nodes of a list. -/
theorem exists_accounts_concat {x z : Node → Run SymbolId LocalSymbol Unit} {y : Node → Listing} :
    ∀ {ns : List Node}, (∀ n ∈ ns, ∃ xs r, Accounts (x n) (y n) (z n) xs r) →
      ∃ xs r, Accounts (ns.forM x) (.concat y ns) (ns.forM z) xs r
  | [], _ => ⟨[], .ok (), accounts_nothing⟩
  | n :: ns, h => by
      obtain ⟨xs, r, hn⟩ := h n List.mem_cons_self
      obtain ⟨ys, r', hns⟩ := exists_accounts_concat fun m hm => h m (List.mem_cons_of_mem n hm)
      exact hn.append hns

end Run

namespace Search

variable {s : Locals} {names : Names}

/-- The symbols that a search finds are declared inside expressions. -/
theorem addsOnly_inExpression (hs : s.factory = LocalSymbol.factory names) (n : Node) :
    Run.AddsOnly (fun x => x.inExpression = true) (s.report n) := by
  refine addsOnly_report hs fun call _ => ?_
  cases call <;> rfl

/-- A run that only adds variables of expressions accounts for itself. -/
theorem exists_accounts_alone {x : Run SymbolId LocalSymbol Unit}
    (h : Run.AddsOnly (fun x => x.inExpression = true) x) :
    ∃ xs r, Run.Accounts x x.alone x xs r := by
  obtain ⟨xs, r, hx, hin⟩ := h
  refine ⟨xs, r, hx, Listing.lists_alone hx, ?_⟩
  rwa [List.filter_eq_self.mpr hin]

/-- A search does. -/
theorem exists_accounts_find (hs : s.factory = LocalSymbol.factory names) (n? : Option Node) :
    ∃ xs r, Run.Accounts (s.find n?) (s.find n?).alone (s.find n?) xs r := by
  refine exists_accounts_alone ?_
  cases n? with
  | none => exact .nothing
  | some n => exact addsOnly_visit (addsOnly_inExpression hs) n

/-! ### Declaration statements -/

/-- The search of a declarator is that of its initial value. -/
theorem visit_declarator_eq_find (s : Locals) {d : Node} (h : d.Shaped)
    (hk : d.kind = .variableDeclarator) : s.visit d = s.find d.children.head? := by
  rw [s.visit_declarator hk]
  rcases (h.variableDeclarator hk).2 with hc | ⟨value, hc, -⟩
  · rw [hc, visitAll_nil]
    rfl
  · rw [hc, visitAll_singleton]
    rfl

/-- A declarator lists its variable, and then what is found in its initial value. -/
theorem exists_accounts_declarator (hs : s.factory = LocalSymbol.factory names) {type d : Node}
    (h : d.Shaped) (hk : d.kind = .variableDeclarator) :
    ∃ xs r, Run.Accounts (s.collectDeclarator names type d) (s.declared names type d)
      (s.visit d) xs r := by
  obtain ⟨⟨i, hl⟩, -⟩ := h.variableDeclarator hk
  have hi : d.identifier? = some i := by simp [Node.identifier?, hl, Leaf.identifier?]
  obtain ⟨xs, r, hf⟩ := exists_accounts_find hs d.children.head?
  have own : Run.Accounts (append (LocalSymbol.regular names s.scope type i))
      (append (LocalSymbol.regular names s.scope type i)).alone (pure ())
      [(LocalSymbol.regular names s.scope type i 0).1] (.ok ()) :=
    ⟨adds_regular names s.scope type i, Listing.lists_alone (adds_regular names s.scope type i),
      Run.adds_pure⟩
  unfold collectDeclarator declared
  rw [hi, s.visit_declarator_eq_find h hk]
  simpa using own.append hf

/-! ### Statements and containers -/

/-- A statement lists the variables of its declarators, or what a search of it finds, if it hosts
variables. -/
theorem exists_accounts_statement (hs : s.factory = LocalSymbol.factory names) {statement : Node}
    (h : statement.Grammatical) : ∃ xs r,
      Run.Accounts (s.collectStatement names statement) (s.registeredBy names statement)
        (if statement.hosts then s.visit statement else pure ()) xs r := by
  -- Only a declaration takes two ways: its variables are listed, its initial values searched.
  by_cases hk : statement.kind = .localDeclarationStatement
  · obtain ⟨declaration, type, declarators, hc, hkd, hcd, ht, hd⟩ := exists_declarators h hk
    have hdeclaration : declaration.Grammatical := h.child (hc ▸ List.mem_singleton_self _)
    rw [if_pos (by simp [Node.hosts, hk]), s.visit_localDeclaration h hk hc hkd hcd ht,
      visitAll_eq_forM, collectStatement, registeredBy, hk, hc]
    obtain ⟨label, _⟩ := declaration
    cases hcd
    refine Run.exists_accounts_concat fun d hm => exists_accounts_declarator hs ?_ (hd d hm)
    exact (hdeclaration.child (List.mem_cons_of_mem _ hm)).shaped
  · have hcollect : s.collectStatement names statement =
        if statement.kind.hostsVariables then s.visit statement else pure () := by
      unfold collectStatement
      split
      · exact absurd ‹_› hk
      · rfl
    have hlist : s.registeredBy names statement = if statement.kind.hostsVariables
        then (s.find (some statement)).alone else pure [] := by
      unfold registeredBy
      split
      · exact absurd ‹_› hk
      · rfl
    have hhosts : statement.hosts = statement.kind.hostsVariables := by simp [Node.hosts, hk]
    rw [hcollect, hlist, hhosts]
    split
    · exact exists_accounts_find hs (some statement)
    · exact ⟨[], .ok (), Run.accounts_nothing⟩

/-- Visiting where it is asked for is visiting those for which it is asked for. -/
theorem forM_ite (s : Locals) (ns : List Node) :
    (ns.forM fun n => if n.hosts then s.visit n else pure ()) =
      (ns.filter Node.hosts).forM s.visit := by
  induction ns with
  | nil => rfl
  | cons n ns ih =>
      have hcons (f : Node → Run SymbolId LocalSymbol Unit) :
          (n :: ns).forM f = (do f n; ns.forM f) := rfl
      rw [hcons, ih]
      cases hn : n.hosts with
      | true => rw [List.filter_cons_of_pos hn]; rfl
      | false => rw [List.filter_cons_of_neg (by simp [hn])]; simp

/-- All statements of a container, one after the other. -/
theorem exists_accounts_statements (hs : s.factory = LocalSymbol.factory names) {ns : List Node}
    (h : ∀ n ∈ ns, n.Grammatical) : ∃ xs r,
      Run.Accounts (ns.forM (s.collectStatement names)) (.concat (s.registeredBy names) ns)
        ((ns.filter Node.hosts).forM s.visit) xs r := by
  rw [← forM_ite]
  exact Run.exists_accounts_concat fun n hn => exists_accounts_statement hs (h n hn)

/-- The search of a container adds what is listed, and the searches of its hosts find the variables
in expressions. -/
theorem exists_accounts_container (hs : s.factory = LocalSymbol.factory names)
    {container : Container} (h : ∀ n ∈ container.nodes, n.Grammatical) : ∃ xs r,
      Run.Accounts (s.collect names container) (s.registered names container)
        (container.hosts.forM (visit { s with enclosing := container.told s.enclosing })) xs r := by
  cases container with
  | statements statements => exact exists_accounts_statements hs h
  | switchSection node =>
      have hg := h node List.mem_cons_self
      obtain ⟨xs, r, hlabels⟩ := exists_accounts_find hs (some node)
      have hstatements : ∀ n ∈ node.children.filter (·.kind.isStatement), n.Grammatical :=
        fun n hn => hg.child (List.mem_of_mem_filter hn)
      obtain ⟨ys, r', hrest⟩ := exists_accounts_statements hs hstatements
      exact hlabels.append hrest
  | constructorInitializer node =>
      let told : Locals := { s with enclosing := none }
      have hlist : s.findInList node.argumentExpressions =
          node.argumentExpressions.forM told.visit := visitAll_eq_forM told _
      have hadds := addsOnly_visitAll (addsOnly_inExpression (s := told) hs)
        node.argumentExpressions
      obtain ⟨xs, r, hx⟩ := exists_accounts_alone hadds
      -- An initializer is registered by the search in its list, for which no scope encloses it.
      refine ⟨xs, r, hx.added, hx.listed, ?_⟩
      show Adds (node.argumentExpressions.forM told.visit) _ _
      rw [← visitAll_eq_forM]
      exact hx.found

end Search

/-! ### What a build registers -/

/-- Searches that go through one after the other go through by themselves, from whatever numbers,
and find the same symbols. -/
theorem Run.Adds.exists_forall₂ {f : Node → Run SymbolId LocalSymbol Unit}
    (h : ∀ n, AddsOnly (fun _ => True) (f n)) (start : Node → SymbolId) :
    ∀ {ns : List Node} {xs : List LocalSymbol}, Adds (ns.forM f) xs (.ok ()) →
      ∃ found : List (List LocalSymbol),
        List.Forall₂ (fun n ys => ∃ next, (f n).alone.run (start n) = .ok (ys, next)) ns found ∧
        unnumbered found.flatten = unnumbered xs
  | [], xs, hxs => by
      refine ⟨[], .nil, ?_⟩
      rw [← unnumbered_number 0 xs, (hxs.unique adds_pure).2 0]
      rfl
  | n :: ns, xs, hxs => by
      obtain ⟨ys, r, hn, -⟩ := h n
      have htail : AddsOnly (fun _ => True) (ns.forM f) := .forM fun m _ => h m
      obtain ⟨zs, r', hns, -⟩ := htail
      cases r with
      | error e =>
          have hend := (hxs.unique hn.bind_error).1
          cases hend
      | ok u =>
          -- What was added in a row is told by one run, so both accounts of it agree up to numbers.
          obtain ⟨hend, hnumber⟩ := hxs.unique (hn.bind hns)
          obtain ⟨found, hfound, hflat⟩ := exists_forall₂ h start (hend ▸ hns)
          refine ⟨number (start n) ys :: found, .cons ?_ hfound, ?_⟩
          · exact ⟨_, Listing.lists_alone hn (start n)⟩
          · rw [List.flatten_cons, unnumbered_append, unnumbered_number, hflat,
              ← unnumbered_append, ← unnumbered_number 0 xs, hnumber, unnumbered_number]

/-! ### The statement `int x = this is var y;` -/

/-- The declared type. -/
def sampleIntType : Node :=
  .mk ⟨⟨.predefinedType, 1, ⟨0, 3⟩⟩, [.token ⟨.intKeyword, 0, ⟨0, 3⟩⟩], 0⟩ []

section

variable (x y : Name)

/-- The initial value. -/
def samplePattern : Node :=
  .mk ⟨⟨.isPatternExpression, 6, ⟨4, 10⟩⟩, [], 0⟩
    [.mk ⟨⟨.thisExpression, 3, ⟨4, 8⟩⟩, [], 0⟩ [],
      .mk ⟨⟨.varPattern, 5, ⟨9, 10⟩⟩, [.identifier ⟨4, ⟨9, 10⟩, y⟩], 0⟩ []]

def sampleDeclarator : Node :=
  .mk ⟨⟨.variableDeclarator, 8, ⟨4, 12⟩⟩, [.identifier ⟨7, ⟨11, 12⟩, x⟩], 0⟩ [samplePattern y]

def sampleStatement : Node :=
  .mk ⟨⟨.localDeclarationStatement, 10, ⟨0, 12⟩⟩, [], 0⟩
    [.mk ⟨⟨.variableDeclaration, 9, ⟨0, 12⟩⟩, [], 0⟩ [sampleIntType, sampleDeclarator x y]]

end

def sampleStatementForm : Form :=
  .localDeclaration (.predefinedType .intKeyword) [.make (.declarator "x")
    [[.make .isPattern [[.make .thisExpression []], [.make .varPattern [[.designation "y"]]]]]]]

theorem run_shelve_sampleStatementForm (names : Names) :
    (Workshop.shelve [sampleStatementForm]).run { names } =
      .ok ((), ⟨11, 13, ((names.intern "y").2.intern "x").2,
        #[some (.node (sampleStatement ((names.intern "y").2.intern "x").1
          (names.intern "y").1))]⟩) := by
  conv => lhs; cbv
  rfl

/-- The variable of the statement. -/
def sampleVariable (x : Name) : LocalSymbol where
  id := 0
  name := x
  kind := .regularVariable
  scope := 0
  enclosing := none
  type := some 1
  implicit := false
  range := ⟨11, 12⟩
  declaringCall := none

/-- The variable of the pattern in the initial value. -/
def samplePatternVariable (y : Name) : LocalSymbol where
  id := 1
  name := y
  kind := .patternVariable
  scope := 0
  enclosing := none
  type := none
  implicit := true
  range := ⟨9, 10⟩
  declaringCall := none

/-- A test of `this` by `var y` finds the variable of its pattern. -/
theorem find_samplePattern (s : Search.Locals) (y : Name) : s.find (some (samplePattern y)) =
    Search.append (s.factory.patternVariable s.scope none ⟨4, ⟨9, 10⟩, y⟩ ⟨9, 10⟩) := by
  simp [Search.find, Search.visit_eq, Search.visitAll_cons, Search.visitAll_nil, samplePattern,
    Node.searched, Node.kind, Node.label, Node.children, Search.report, Node.site?, Node.leaves,
    Leaf.identifier?]
  rfl

/-- The declaration statement lists its variable, and then what its initial value declares. -/
theorem registeredBy_sampleStatement (s : Search.Locals) (names : Names) (x y : Name) :
    s.registeredBy names (sampleStatement x y) = .concat (fun _ => do
      let own ← (Search.append (LocalSymbol.regular names s.scope sampleIntType
        ⟨7, ⟨11, 12⟩, x⟩)).alone
      return own ++ (← (s.find (some (samplePattern y))).alone)) [sampleDeclarator x y] :=
  rfl

theorem run_registered_sampleStatement (tree : Tree) (x y : Name) :
    ((Search.inScope tree .empty 0 none).registered .empty
      (.statements [sampleStatement x y])).run 0 =
        .ok ([sampleVariable x, samplePatternVariable y], 2) := by
  show (Listing.concat (Search.registeredBy _ .empty) [sampleStatement x y]).run 0 = _
  simp only [Listing.concat, registeredBy_sampleStatement, find_samplePattern]
  rfl

/-! ### The section `case var u: this is var v; int x = this is var y;` -/

section

variable (u v x y : Name)

/-- The statement `this is var v;`. -/
def sampleTestStatement : Node :=
  .mk ⟨⟨.expressionStatement, 19, ⟨15, 21⟩⟩, [], 0⟩
    [.mk ⟨⟨.isPatternExpression, 18, ⟨15, 21⟩⟩, [], 0⟩
      [.mk ⟨⟨.thisExpression, 15, ⟨15, 19⟩⟩, [], 0⟩ [],
        .mk ⟨⟨.varPattern, 17, ⟨20, 21⟩⟩, [.identifier ⟨16, ⟨20, 21⟩, v⟩], 0⟩ []]]

def sampleSection : Node :=
  .mk ⟨⟨.switchSection, 20, ⟨0, 21⟩⟩, [], 0⟩
    [.mk ⟨⟨.casePatternSwitchLabel, 13, ⟨13, 14⟩⟩, [], 0⟩
        [.mk ⟨⟨.varPattern, 12, ⟨13, 14⟩⟩, [.identifier ⟨11, ⟨13, 14⟩, u⟩], 0⟩ []],
      sampleTestStatement v, sampleStatement x y]

end

/-- The declaration statement is the first of those built, and is moved into the section. -/
def sampleSectionForm : Form :=
  .make .switchSection [[.make .casePatternLabel [[Search.sampleVar "u"], []]],
    [.make .expressionStatement [[Search.sampleTest (Search.sampleVar "v")]], .take 0]]

theorem run_shelve_sampleSectionForm (names : Names) (x y : Name) :
    (Workshop.shelve [sampleSectionForm]).run
      ⟨11, 13, names, #[some (.node (sampleStatement x y))]⟩ =
      .ok ((), ⟨21, 22, ((names.intern "u").2.intern "v").2,
        #[none, some (.node (sampleSection (names.intern "u").1
          ((names.intern "u").2.intern "v").1 x y))]⟩) := by
  conv => lhs; cbv
  rfl

theorem run_shelve_sampleSection (names : Names) :
    let y := names.intern "y"
    let x := y.2.intern "x"
    let u := x.2.intern "u"
    let v := u.2.intern "v"
    (Workshop.shelve [sampleStatementForm, sampleSectionForm]).run { names } =
      .ok ((), ⟨21, 22, v.2, #[none, some (.node (sampleSection u.1 v.1 x.1 y.1))]⟩) := by
  intro y x u v
  exact (Workshop.run_shelve_append [_] (run_shelve_sampleStatementForm names)).trans
    (run_shelve_sampleSectionForm x.2 x.1 y.1)

/-- The symbols of the section: that of the label, and those of its statements. -/
def sampleSectionSymbols (u v x y : Name) : List LocalSymbol :=
  [{ samplePatternVariable u with id := 0, range := ⟨13, 14⟩ },
    { samplePatternVariable v with id := 1, range := ⟨20, 21⟩ },
    (sampleVariable x).withId 2, (samplePatternVariable y).withId 3]

/-- The listing has the label first, and the statements in their order. -/
theorem run_registered_sampleSection (tree : Tree) {u v x y : Name}
    (hg : (sampleSection u v x y).Grammatical) :
    ((Search.inScope tree .empty 0 none).registered .empty
      (.switchSection (sampleSection u v x y))).run 0 =
        .ok (sampleSectionSymbols u v x y, 4) := by
  let s := Search.inScope tree .empty 0 none
  have find {n : Node} (hn : n.Within (sampleSection u v x y)) :
      s.find (some n) = forM (n.reached true) fun r => s.report r.2 :=
    s.visit_eq_reached (hg.within hn)
  have hlabel := find (.refl _)
  have htest : s.registeredBy .empty (sampleTestStatement v) =
      (forM ((sampleTestStatement v).reached true) fun r => s.report r.2).alone :=
    congrArg Run.alone (find ⟨[1], rfl⟩)
  show (do
    let labels ← (s.find (some (sampleSection u v x y))).alone
    return labels ++ (← Listing.concat (s.registeredBy .empty)
      [sampleTestStatement v, sampleStatement x y])).run 0 = _
  simp only [Listing.concat, hlabel, htest, registeredBy_sampleStatement, find_samplePattern]
  rfl

namespace ScopeBuilder

/-- A build whose listing goes through appends a scope with what is listed. -/
theorem build_eq_of_registered {tree : Tree} {names : Names} (b : ScopeBuilder)
    {parent : Option ScopeId} {container : Container}
    (hg : ∀ n ∈ container.nodes, n.Grammatical) {xs : List LocalSymbol} {next : SymbolId}
    (h : ((Search.inScope tree names b.scopes.size parent).registered names container).run
      b.nextSymbol = .ok (xs, next)) :
    b.build tree names parent container = (.ok b.scopes.size,
      { scopes := ⟨b.scopes.scopes.push (.holding b.scopes.size parent xs)⟩
        nextSymbol := next }) := by
  obtain ⟨ys, r, hy⟩ := Search.exists_accounts_container
    (Search.factory_inScope tree names b.scopes.size parent) hg
  rw [hy.listed b.nextSymbol] at h
  cases r with
  | error e => cases h
  | ok u =>
      cases h
      exact b.build_eq hy.added

/-- **What a build registers.**  It goes through exactly when the listing of the container does,
and then the new scope holds what is listed.  The variables in expressions are those that searches
of the hosts find, each by itself and from whatever number. -/
theorem build_registered {forms : List Form} {w : Workshop} (built : Workshop.ofForms forms = .ok w)
    (tree : Tree) (names : Names) (b : ScopeBuilder) (parent : Option ScopeId)
    {container : Container} (held : ∀ n ∈ container.nodes, w.Holds n) :
    let s := Search.inScope tree names b.scopes.size parent
    let listed := (s.registered names container).run b.nextSymbol
    let outcome := b.build tree names parent container
    outcome.1 = listed.map (fun _ => b.scopes.size) ∧
    ∀ xs next, listed = .ok (xs, next) → outcome.2.nextSymbol = next ∧
      (∃ scope, outcome.2.scopes.get? b.scopes.size = some scope ∧ scope.symbols.toList = xs) ∧
      ∀ start : Node → SymbolId, ∃ found : List (List LocalSymbol),
        List.Forall₂ (fun n ys => ∃ next,
          (Search.find { s with enclosing := container.told parent } (some n)).alone.run (start n) =
            .ok (ys, next)) container.hosts found ∧
        unnumbered (xs.filter inExpression) = unnumbered found.flatten := by
  intro s listed outcome
  have hg : ∀ n ∈ container.nodes, n.Grammatical := fun n hn => (held n hn).grammatical built
  have hf : s.factory = LocalSymbol.factory names := rfl
  obtain ⟨xs, r, hx⟩ := Search.exists_accounts_container hf hg
  have hlisted : listed = r.map fun _ => (number b.nextSymbol xs, b.nextSymbol + xs.length) :=
    hx.listed b.nextSymbol
  refine ⟨?_, fun ys next hys => ?_⟩
  · rw [hlisted]
    refine (congrArg Prod.fst (b.build_eq hx.added)).trans ?_
    cases r <;> rfl
  · have hbuild := b.build_eq_of_registered hg hys
    refine ⟨congrArg (·.2.nextSymbol) hbuild,
      ⟨_, ?_, Scope.symbols_holding b.scopes.size parent ys⟩, fun start => ?_⟩
    · exact (congrArg (·.2.scopes.get? b.scopes.size) hbuild).trans Array.getElem?_push_size
    · rw [hlisted] at hys
      cases r with
      | error e => cases hys
      | ok u =>
          cases hys
          -- Searches of the hosts add the listed variables one host at a time, from any number.
          let told : Search.Locals := { s with enclosing := container.told parent }
          obtain ⟨found, hfound, hflat⟩ := Run.Adds.exists_forall₂ (fun n =>
            (Search.addsOnly_visit (Search.addsOnly_inExpression (s := told) hf) n).mono
              fun _ _ => trivial) start hx.found
          exact ⟨found, hfound, by rw [unnumbered_filter_number, hflat]⟩

/-- The section registers the variable of its label, that of the test, and of the declaration its
own variable before that of the initial value. Searches of the section, of the test and of the
declaration find the three in expressions. -/
theorem build_registered_sampleSection : ∃ (w : Workshop) (u v x y : Name),
    Workshop.ofForms [sampleStatementForm, sampleSectionForm] = .ok w ∧
      w.Holds (sampleSection u v x y) ∧
      let node := sampleSection u v x y
      let container : Container := .switchSection node
      let s := Search.inScope (.ofRoot node) .empty 0 none
      let outcome := build {} (.ofRoot node) .empty none container
      container.hosts = [node, sampleTestStatement v, sampleStatement x y] ∧
      outcome.1 = .ok 0 ∧ outcome.2.nextSymbol = 4 ∧
      (∃ scope, outcome.2.scopes.get? 0 = some scope ∧
        scope.symbols.toList = sampleSectionSymbols u v x y) ∧
      ∃ found : List (List LocalSymbol),
        List.Forall₂ (fun n ys => ∃ next, (s.find (some n)).alone.run 0 = .ok (ys, next))
          container.hosts found ∧
        unnumbered ((sampleSectionSymbols u v x y).filter inExpression) =
          unnumbered found.flatten := by
  let y := Names.empty.intern "y"
  let x := y.2.intern "x"
  let u := x.2.intern "u"
  let v := u.2.intern "v"
  let node := sampleSection u.1 v.1 x.1 y.1
  let w : Workshop := ⟨21, 22, v.2, #[none, some (.node node)]⟩
  have built : Workshop.ofForms [sampleStatementForm, sampleSectionForm] = .ok w := by
    rw [Workshop.ofForms, run_shelve_sampleSection]
    rfl
  have held : w.Holds node := ⟨_, List.mem_singleton_self _, .refl _⟩
  let tree := Tree.ofRoot node
  have hlisted := run_registered_sampleSection tree (held.grammatical built)
  have hnodes : ∀ n ∈ Container.nodes (.switchSection node), w.Holds n :=
    fun n hn => List.mem_singleton.mp hn ▸ held
  obtain ⟨hok, hall⟩ := build_registered built tree .empty {} none hnodes
  obtain ⟨hnext, hscope, hfound⟩ := hall _ 4 hlisted
  exact ⟨w, u.1, v.1, x.1, y.1, built, held, rfl, hok.trans (congrArg (Except.map _) hlisted),
    hnext, hscope, hfound fun _ => 0⟩

end ScopeBuilder

end InlineLocals
