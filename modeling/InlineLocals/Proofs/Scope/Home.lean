import InlineLocals.Proofs.Declaration.Confined
import InlineLocals.Proofs.Scope.Building
import InlineLocals.Proofs.Scope.Registered
import InlineLocals.Proofs.Syntax.Layout

/-!
# Scope — Home

Every variable is in the scope of its own container.  A symbol remembers the name and the place of
the identifier that it was made for; `Node.Declares` says which node holds such an identifier, and
as leaves are known by where they start there is one such node in a tree.  The search of a container
makes symbols for what belongs to it only (`Search.addsOnly_owns`), and this is the first container
on the way up from the declaring node (`ScopeBuilder.declared_in_container`).
-/

namespace InlineLocals

open LocalSymbol (number)
open Run (AddsOnly)

/-! ### Declaring nodes -/

/-- The kinds of nodes that hold the names of variables of a kind. -/
def LocalKind.declaredBy : LocalKind → Kind → Bool
  | regularVariable, kind => kind == .variableDeclarator
  | patternVariable, kind =>
    kind == .declarationPattern || kind == .varPattern || kind == .recursivePattern
  | outVariable, kind => kind == .declarationExpression

/-- The symbol stands for the variable that the node declares by the identifier. -/
structure Node.Declares (n : Node) (i : Identifier) (x : LocalSymbol) : Prop where
  holds : .identifier i ∈ n.leaves
  kind : x.kind.declaredBy n.kind = true
  name : x.name = i.name
  range : x.range = i.range

namespace Node

/-- Numbering a symbol does not change what it stands for. -/
theorem Declares.withId {n : Node} {i : Identifier} {x : LocalSymbol} (h : n.Declares i x)
    (id : SymbolId) : n.Declares i (x.withId id) :=
  ⟨h.holds, h.kind, h.name, h.range⟩

/-- A node that declares the variable of a symbol is the only one in the workshop. -/
theorem Declares.unique {forms : List Form} {w : Workshop} {m n : Node} {i j : Identifier}
    {x : LocalSymbol} (built : Workshop.ofForms forms = .ok w) (hm : w.Holds m) (hn : w.Holds n)
    (h : m.Declares i x) (h' : n.Declares j x) : m = n :=
  hm.eq_of_pos_eq built hn h.holds h'.holds (congrArg Range.pos (h.range.symm.trans h'.range))

/-- The container that has the node as its own. -/
def container? (c : Node) : Option Container :=
  match c.kind with
  | .block => some (.statements c.children)
  | .switchSection => some (.switchSection c)
  | .thisConstructorInitializer | .baseConstructorInitializer => some (.constructorInitializer c)
  | _ => none

theorem isContainer_of_container? {c : Node} {container : Container}
    (h : c.container? = some container) : c.kind.isContainer = true := by
  unfold container? at h
  unfold Kind.isContainer
  split at h
  all_goals first | cases h; done | simp_all

/-- The symbol stands for a variable that is declared in `c` and in no container below it. -/
def Owns (c : Node) (x : LocalSymbol) : Prop := ∃ n i, c.Belongs n ∧ n.Declares i x

end Node

/-! ### The search of a container -/

namespace Search

variable {s : Locals} {names : Names} {c : Node}

theorem Requests.declares {n : Node} {call : Call} (h : s.Requests n call) (names : Names) :
    ∃ i, n.Declares i (call.symbol names) := by
  cases h with
  | declarationPattern hk _ hn | varPattern hk hn | recursivePattern hk hn
  | declarationExpression hk _ hn _ =>
      refine ⟨_, Node.mem_leaves_of_identifier? hn, ?_, rfl, rfl⟩
      rw [hk]
      rfl

/-- The report of a node makes symbols for what the node declares. -/
theorem addsOnly_report_owns (hf : s.factory = LocalSymbol.factory names) {n : Node}
    (h : n.Shaped) (hn : c.Belongs n) : AddsOnly c.Owns (s.report n) := by
  refine addsOnly_report hf fun call hcall => ?_
  obtain ⟨i, hi⟩ := (s.requests_of_request h hcall).declares names
  exact ⟨n, i, hn, hi⟩

/-- The search of what belongs to a container makes symbols for what belongs to it; so does the
search of a section of a switch. -/
theorem addsOnly_visit_owns (hf : s.factory = LocalSymbol.factory names) {n : Node}
    (hg : n.Grammatical)
    (hn : (n = c ∧ n.kind = .switchSection) ∨ (c.Belongs n ∧ n.kind.confined = true)) :
    AddsOnly c.Owns (s.visit n) := by
  rw [s.visit_eq_reached hg]
  refine AddsOnly.forM ?_
  rintro ⟨path, m⟩ hm
  obtain ⟨ha, hat⟩ := Node.mem_reached.mp hm
  have hshaped := hg m ⟨path, hat⟩
  have hk : n.kind.confined = true ∨ n.kind = .switchSection := hn.symm.imp And.right And.right
  rcases Node.Belongs.of_admits hg hk (hn.imp And.left And.left) ha hat with rfl | h
  · rcases hn with ⟨-, hk⟩ | ⟨hb, -⟩
    · have hr : s.report m = pure () := by simp [report, Node.site?, hk]
      rw [hr]
      exact .nothing
    · exact addsOnly_report_owns hf hshaped hb
  · exact addsOnly_report_owns hf hshaped h

/-- The search of a statement of a container makes symbols for what belongs to it. -/
theorem addsOnly_collectStatement_owns (hf : s.factory = LocalSymbol.factory names)
    {statement : Node} (hg : statement.Grammatical) (hm : statement ∈ c.children) :
    AddsOnly c.Owns (s.collectStatement names statement) := by
  refine addsOnly_collectStatement ?_ ?_
  · intro declaration type declarators hk hc hcd d hd
    have hdeclaration : declaration ∈ statement.children := hc ▸ List.mem_singleton_self _
    have hgd := hg.child hdeclaration
    have hdc : d ∈ declaration.children := hcd ▸ List.mem_cons_of_mem _ hd
    obtain ⟨declaration', hc', hkd⟩ := hg.shaped.localDeclarationStatement hk
    rw [hc] at hc'
    cases hc'
    obtain ⟨type', declarators', hcd', -, hkd'⟩ := hgd.shaped.variableDeclaration hkd
    rw [hcd] at hcd'
    cases hcd'
    have hkind := hkd' d hd
    have hb : c.Belongs d := by
      refine .deeper (.deeper (.direct hm ?_) hdeclaration ?_) hdc ?_
      · rw [hk]; rfl
      · rw [hkd]; rfl
      · rw [hkind]; rfl
    -- The declarator makes a symbol of its own, and its initial value is searched.
    refine addsOnly_collectDeclarator (fun i hi => ?_) ?_
    · refine ⟨d, i, hb, Node.mem_leaves_of_identifier? hi, ?_, rfl, rfl⟩
      rw [hkind]
      rfl
    · exact addsOnly_visit_owns hf (hgd.child hdc)
        (.inr ⟨hb, by rw [hkind]; rfl⟩)
  · intro hh
    have hconfined : statement.kind.confined = true := by
      rcases Kind.hostsVariables_iff.mp hh with hk | hk | hk | hk | hk | hk | hk | hk <;>
        rw [hk] <;> rfl
    have hb : c.Belongs statement := .direct hm (Kind.isContainer_of_confined hconfined)
    exact addsOnly_visit_owns hf hg (.inr ⟨hb, hconfined⟩)

/-- The arguments of a call to another constructor belong to it. -/
theorem belongs_of_mem_argumentExpressions (hg : c.Grammatical)
    (hk : c.kind.isConstructorInitializer = true) {e : Node} (he : e ∈ c.argumentExpressions) :
    e.Within c ∧ c.Belongs e ∧ e.kind.confined = true := by
  obtain ⟨list, hl, he⟩ := List.mem_flatMap.mp he
  obtain ⟨argument, ha, he⟩ := List.mem_flatMap.mp he
  have hlist := hg.child hl
  have hargument := hlist.child ha
  obtain ⟨list', hc, hkl⟩ := hg.shaped.constructorInitializer hk
  obtain rfl : list = list' := List.mem_singleton.mp (hc ▸ hl)
  have hka := hlist.shaped.kind_of_mem_argumentList hkl ha
  have hke : e.kind.confined = true := hargument.shaped.confined_of_mem_children
    (by rw [hka]; rfl) (by rw [hka]; rfl) he
  refine ⟨?_, .deeper (.deeper (.direct hl ?_) ha ?_) he (Kind.isContainer_of_confined hke), hke⟩
  · exact (Node.within_of_mem_children he).trans
      ((Node.within_of_mem_children ha).trans (Node.within_of_mem_children hl))
  · rw [hkl]; rfl
  · rw [hka]; rfl

/-- **The search of a container** makes symbols only for variables that are declared in it and in
no container below it. -/
theorem addsOnly_owns (hf : s.factory = LocalSymbol.factory names) (hg : c.Grammatical)
    {container : Container} (hc : c.container? = some container) :
    AddsOnly c.Owns (s.collect names container) := by
  have statement {n : Node} (hn : n ∈ c.children) := addsOnly_collectStatement_owns (s := s) hf
    (hg.child hn) hn
  have arguments (hk : c.kind.isConstructorInitializer = true) :
      AddsOnly c.Owns (s.findInList c.argumentExpressions) := by
    let told : Locals := { s with enclosing := none }
    show AddsOnly c.Owns (told.visitAll c.argumentExpressions)
    rw [visitAll_eq_forM]
    refine .forM fun e he => ?_
    obtain ⟨hw, hb, hke⟩ := belongs_of_mem_argumentExpressions hg hk he
    exact addsOnly_visit_owns (s := told) hf (hg.within hw) (.inr ⟨hb, hke⟩)
  unfold Node.container? at hc
  split at hc
  · cases hc
    exact .forM fun n hn => statement hn
  · next hk =>
    cases hc
    exact (addsOnly_visit_owns hf hg (.inl ⟨rfl, hk⟩)).bind
      (.forM fun n hn => statement (List.mem_of_mem_filter hn))
  · next hk =>
    cases hc
    exact arguments (Kind.isConstructorInitializer_iff.mpr (.inl hk))
  · next hk =>
    cases hc
    exact arguments (Kind.isConstructorInitializer_iff.mpr (.inr hk))
  · cases hc

end Search

/-! ### The block `{ { int x = this is var y; } }` -/

def sampleInnerBlock (x y : Name) : Node :=
  .mk ⟨⟨.block, 11, ⟨0, 12⟩⟩, [], 0⟩ [sampleStatement x y]

def sampleOuterBlock (x y : Name) : Node :=
  .mk ⟨⟨.block, 12, ⟨0, 12⟩⟩, [], 0⟩ [sampleInnerBlock x y]

def sampleBlocksForm : Form := .make .block [[.make .block [[sampleStatementForm]]]]

theorem run_shelve_sampleBlocksForm (names : Names) :
    (Workshop.shelve [sampleBlocksForm]).run { names } =
      .ok ((), ⟨13, 13, ((names.intern "y").2.intern "x").2,
        #[some (.node (sampleOuterBlock ((names.intern "y").2.intern "x").1
          (names.intern "y").1))]⟩) := by
  conv => lhs; cbv
  rfl

/-! ### The scopes of the containers of a tree -/

namespace ScopeBuilder

variable {forms : List Form} {w : Workshop} {root : Node}

/-- The jobs build the scopes of containers of the tree below `root`. -/
abbrev Homes (root : Node) (jobs : List Job) (homes : List Node) : Prop :=
  List.Forall₂ (fun job c => c.Within root ∧ c.container? = some job.container) jobs homes

theorem exists_home {jobs : List Job} {homes : List Node} (hh : Homes root jobs homes) {k : Nat}
    {job : Job} (hjob : jobs[k]? = some job) :
    ∃ c, homes[k]? = some c ∧ c.Within root ∧ c.container? = some job.container := by
  induction hh generalizing k with
  | nil => cases hjob
  | @cons _ c _ _ hc _ ih =>
      cases k with
      | zero => cases hjob; exact ⟨c, rfl, hc⟩
      | succ k => exact ih hjob

theorem owns_of_mem_symbols (built : Workshop.ofForms forms = .ok w) (hr : w.Holds root)
    {tree : Tree} {names : Names} {jobs : List Job} {homes : List Node}
    (hh : Homes root jobs homes) {k : ScopeId} {scope : Scope} {x : LocalSymbol}
    (hs : (buildAll tree names {} jobs).scopes.get? k = some scope) (hx : x ∈ scope.symbols) :
    ∃ c, homes[k]? = some c ∧ c.Within root ∧ c.kind.isContainer = true ∧ c.Owns x := by
  obtain ⟨job, next, xs, r, hjob, hadds, rfl⟩ := (traced_buildAll jobs).exists_job k scope hs
  obtain ⟨c, hc, hw, hcontainer⟩ := exists_home hh hjob
  have hg := (hr.within hw).grammatical built
  have howns := Search.addsOnly_owns (Search.factory_inScope tree names k job.parent) hg hcontainer
  refine ⟨c, hc, hw, Node.isContainer_of_container? hcontainer, ?_⟩
  refine Scope.forall_mem_holding ?_ hadds howns k job.parent next x hx
  rintro y id ⟨n, i, hb, hd⟩
  exact ⟨n, i, hb, hd.withId id⟩

/-- **Every variable is in the scope of its own container**: the node that declares it, and there is
one such node in the tree, has the container of the scope as the first one on its way up.  So no
identifier is registered in two scopes when no container is built twice. -/
theorem declared_in_container (built : Workshop.ofForms forms = .ok w) (hr : w.Holds root)
    (tree : Tree) (names : Names) {jobs : List Job} {homes : List Node}
    (hh : Homes root jobs homes) :
    let scopes := (buildAll tree names {} jobs).scopes
    (∀ k scope x, scopes.get? k = some scope → x ∈ scope.symbols →
      ∃ c n, homes[k]? = some c ∧ n.Within root ∧ (∃ i, n.Declares i x) ∧
        root.InContainer n c ∧ ∀ (m : Node) j, m.Within root → m.Declares j x → m = n) ∧
    (homes.Nodup → ∀ k l s t x y (n : Node) i, scopes.get? k = some s → scopes.get? l = some t →
      x ∈ s.symbols → y ∈ t.symbols → n.Within root → n.Declares i x → n.Declares i y → k = l) := by
  intro scopes
  have home (k : ScopeId) (scope : Scope) (x : LocalSymbol) (hs : scopes.get? k = some scope)
      (hx : x ∈ scope.symbols) : ∃ c n, homes[k]? = some c ∧ n.Within root ∧
        (∃ i, n.Declares i x) ∧ root.InContainer n c ∧
        ∀ (m : Node) j, m.Within root → m.Declares j x → m = n := by
    obtain ⟨c, hc, hw, hk, n, i, hb, hd⟩ := owns_of_mem_symbols built hr hh hs hx
    obtain ⟨hn, hin⟩ := hb.inContainer hw hk
    refine ⟨c, n, hc, hn, ⟨i, hd⟩, hin, fun m j hm hj => ?_⟩
    exact hj.unique built (hr.within hm) (hr.within hn) hd
  refine ⟨home, ?_⟩
  intro hnodup k l s t x y n i hs ht hx hy hn hdx hdy
  obtain ⟨c, p, hc, -, -, hin, honly⟩ := home k s x hs hx
  obtain ⟨c', p', hc', -, -, hin', honly'⟩ := home l t y ht hy
  -- Both symbols are of `n`, which lies in one container; and that is built once.
  obtain rfl := honly n i hn hdx
  obtain rfl := honly' n i hn hdy
  obtain rfl := hin.unique built hr hin'
  exact (List.getElem?_inj (List.getElem?_eq_some_iff.mp hc).1 hnodup).mp (hc.trans hc'.symm)

/-- The variables of the inner block, whose scope is built before that of the outer one. -/
theorem declared_in_container_sampleBlocks : ∃ (w : Workshop) (x y : Name),
    Workshop.ofForms [sampleBlocksForm] = .ok w ∧ w.Holds (sampleOuterBlock x y) ∧
      let root := sampleOuterBlock x y
      let inner := sampleInnerBlock x y
      let jobs : List Job :=
        [⟨none, .statements [sampleStatement x y]⟩, ⟨none, .statements [inner]⟩]
      Homes root jobs [inner, root] ∧ [inner, root].Nodup ∧
      ∃ scope, (buildAll (.ofRoot root) .empty {} jobs).scopes.get? 0 = some scope ∧
        scope.symbols.toList = [sampleVariable x, samplePatternVariable y] ∧
        ∀ v ∈ scope.symbols, ∃ n i, n.Declares i v ∧ root.InContainer n inner := by
  let x : Name := ((Names.empty.intern "y").2.intern "x").1
  let y : Name := (Names.empty.intern "y").1
  let w : Workshop := ⟨13, 13, ((Names.empty.intern "y").2.intern "x").2,
    #[some (.node (sampleOuterBlock x y))]⟩
  let root := sampleOuterBlock x y
  let inner := sampleInnerBlock x y
  let jobs : List Job := [⟨none, .statements [sampleStatement x y]⟩, ⟨none, .statements [inner]⟩]
  have built : Workshop.ofForms [sampleBlocksForm] = .ok w := by
    rw [Workshop.ofForms, run_shelve_sampleBlocksForm]
    rfl
  have held : w.Holds root := ⟨_, List.mem_singleton_self _, .refl _⟩
  have hinner : inner.Within root := ⟨[0], rfl⟩
  have homes : Homes root jobs [inner, root] :=
    .cons ⟨hinner, rfl⟩ (.cons ⟨.refl _, rfl⟩ .nil)
  have hne : inner ≠ root := fun h => absurd (congrArg Node.id h) (by decide)
  have hnodup : [inner, root].Nodup := by simpa using hne
  obtain ⟨scope, hscope, hsymbols⟩ : ∃ scope,
      (buildAll (.ofRoot root) .empty {} jobs).scopes.get? 0 = some scope ∧
        scope.symbols.toList = [sampleVariable x, samplePatternVariable y] := by
    refine ⟨.holding 0 none _, ?_, Scope.symbols_holding 0 none _⟩
    have hg : ∀ n ∈ Container.nodes (.statements [sampleStatement x y]), n.Grammatical :=
      fun n hn => List.mem_singleton.mp hn ▸ (held.within ⟨[0, 0], rfl⟩).grammatical built
    let first := (build {} (.ofRoot root) .empty none (.statements [sampleStatement x y])).2
    have hfirst : first = { scopes := ⟨#[.holding 0 none _]⟩, nextSymbol := 2 } :=
      congrArg Prod.snd
        (build_eq_of_registered {} hg (run_registered_sampleStatement (.ofRoot root) x y))
    show (first.build (.ofRoot root) .empty none (.statements [inner])).2.scopes.get? 0 = _
    rw [get?_build _ _ _ (by rw [hfirst]; exact Nat.one_pos), hfirst]
    rfl
  refine ⟨w, x, y, built, held, homes, hnodup, scope, hscope, hsymbols, fun v hv => ?_⟩
  obtain ⟨c, n, hc, -, ⟨i, hi⟩, hin, -⟩ :=
    (declared_in_container built held (.ofRoot root) .empty homes).1 0 scope v hscope hv
  cases hc
  exact ⟨n, i, hi, hin⟩

end ScopeBuilder

end InlineLocals
