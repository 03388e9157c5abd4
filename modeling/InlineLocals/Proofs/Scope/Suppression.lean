import Mathlib
import InlineLocals.Proofs.Declaration.Twin
import InlineLocals.Proofs.Scope.Adding

/-!
# Scope — Suppression

What a search finds does not depend on ids, positions and numbers of names, nor on the parts that
have variables of their own.  All that can be told of a symbol without these is a `Sighting`.  In
two trees with one outline the reports of twins ask for symbols of one sighting, or fail at nodes of
one kind (`alike_report`); so the searches end alike and what they find looks alike
(`Search.outcome_alike`).
-/

namespace InlineLocals

open LocalSymbol (number map_number)
open Run (Adds)

/-! ### Sightings -/

/-- What can be told of a symbol without ids and positions. -/
structure Sighting where
  /-- The text of the variable's name. -/
  text : Option String
  kind : LocalKind
  implicit : Bool
  /-- The declaration names a type. -/
  typed : Bool
  /-- The kind of the call that the variable is declared in an argument of. -/
  call : Option Kind
deriving DecidableEq

/-- The kind of the node with an id, in the tree below `root`. -/
def Node.kindOf? (root : Node) (id : NodeId) : Option Kind :=
  (root.nodes.find? (·.id == id)).map kind

/-- The kind of a node can be told from its id. -/
theorem Node.kindOf?_id {forms : List Form} {w : Workshop} {root n : Node}
    (built : Workshop.ofForms forms = .ok w) (hr : w.Holds root) (hn : n.Within root) :
    root.kindOf? n.id = some n.kind := by
  have hsome : (root.nodes.find? (·.id == n.id)).isSome := by
    rw [List.find?_isSome]
    exact ⟨n, mem_nodes.mpr hn, beq_self_eq_true _⟩
  obtain ⟨m, hm⟩ := Option.isSome_iff_exists.mp hsome
  have hw := mem_nodes.mp (List.mem_of_find?_eq_some hm)
  have hid := List.find?_some hm
  rw [kindOf?, hm, (hr.within hw).eq_of_id_eq built (hr.within hn) (beq_iff_eq.mp hid)]
  rfl

/-- What can be told of the symbol when the tree below `root` was searched. -/
def LocalSymbol.sighting (root : Node) (names : Names) (x : LocalSymbol) : Sighting where
  text := names.text? x.name
  kind := x.kind
  implicit := x.implicit
  typed := x.type.isSome
  call := x.declaringCall.bind root.kindOf?

/-! ### Runs that look alike -/

/-- Whatever the progress, the runs end alike, and what they add looks alike. -/
def Run.Alike (sight sight' : LocalSymbol → Sighting) (x x' : Run SymbolId LocalSymbol Unit) :
    Prop :=
  ∃ xs xs' r r', Adds x xs r ∧ Adds x' xs' r' ∧ xs.map sight = xs'.map sight' ∧
    r.mapError (·.context) = r'.mapError (·.context)

namespace Run

variable {sight sight' : LocalSymbol → Sighting}

theorem alike_nothing : Alike sight sight' (pure ()) (pure ()) :=
  ⟨[], [], .ok (), .ok (), adds_pure, adds_pure, rfl, rfl⟩

/-- Runs that are alike stay alike one after the other. -/
theorem Alike.bind {x x' y y' : Run SymbolId LocalSymbol Unit} (hx : Alike sight sight' x x')
    (hy : Alike sight sight' y y') : Alike sight sight' (do x; y) (do x'; y') := by
  obtain ⟨xs, xs', r, r', hx, hx', hxs, hr⟩ := hx
  obtain ⟨ys, ys', q, q', hy, hy', hys, hq⟩ := hy
  cases r with
  | error e =>
      cases r' with
      | error e' => exact ⟨xs, xs', _, _, hx.bind_error, hx'.bind_error, hxs, hr⟩
      | ok u => cases hr
  | ok u =>
      cases r' with
      | error e' => cases hr
      | ok u' =>
          refine ⟨xs ++ ys, xs' ++ ys', q, q', hx.bind hy, hx'.bind hy', ?_, hq⟩
          rw [List.map_append, List.map_append, hxs, hys]

/-- So do loops over lists whose members are alike. -/
theorem Alike.forM {α β : Type} {R : α → β → Prop} {f : α → Run SymbolId LocalSymbol Unit}
    {g : β → Run SymbolId LocalSymbol Unit} (h : ∀ a b, R a b → Alike sight sight' (f a) (g b)) :
    ∀ {as : List α} {bs : List β}, List.Forall₂ R as bs →
      Alike sight sight' (as.forM f) (bs.forM g)
  | [], [], .nil => alike_nothing
  | _ :: _, _ :: _, .cons hab hr => (h _ _ hab).bind (Alike.forM h hr)

end Run

/-! ### Reports of twins -/

namespace Search

open Node (kind_eq_of_outline_eq rel_type? text?_identifier?_eq)

variable {names names' : Names}

/-- Types of one outline are `var` together, whatever numbers their names have. -/
theorem isVar_eq_of_outline_eq {type type' : Node}
    (h : type.outline names = type'.outline names') :
    LocalSymbol.isVar names type = LocalSymbol.isVar names' type' := by
  rw [Bool.eq_iff_iff, LocalSymbol.isVar_iff, LocalSymbol.isVar_iff, kind_eq_of_outline_eq h,
    text?_identifier?_eq h]

/-- The requests ask for symbols of one sighting or for nothing, or fail at nodes of one kind. -/
inductive AlikeRequests (sight sight' : LocalSymbol → Sighting) (names names' : Names) :
    Except ContextError (Option Call) → Except ContextError (Option Call) → Prop where
  | nothing : AlikeRequests sight sight' names names' (.ok none) (.ok none)
  | call {c c' : Call} (h : sight (c.symbol names) = sight' (c'.symbol names')) :
      AlikeRequests sight sight' names names' (.ok (some c)) (.ok (some c'))
  | error {e e' : ContextError} (h : e.context = e'.context) :
      AlikeRequests sight sight' names names' (.error e) (.error e')

variable {sight sight' : LocalSymbol → Sighting} {s s' : Locals}

/-- Reports are alike when they ask for the like. -/
theorem alike_report_of_requests (hf : s.factory = LocalSymbol.factory names)
    (hf' : s'.factory = LocalSymbol.factory names') {n n' : Node}
    (h : AlikeRequests sight sight' names names' (s.request n) (s'.request n')) :
    Run.Alike sight sight' (s.report n) (s'.report n') := by
  refine ⟨_, _, _, _, adds_report hf n, adds_report hf' n', ?_⟩
  revert h
  generalize s.request n = q, s'.request n' = q'
  rintro (_ | h | h)
  · exact ⟨rfl, rfl⟩
  · exact ⟨congrArg (fun x => [x]) h, rfl⟩
  · exact ⟨rfl, congrArg Except.error h⟩

/-- The type that a pattern tells. -/
theorem Requests.type?_eq {n : Node} {scope : ScopeId} {type? : Option Node} {i : Identifier}
    {range : Range} (h : s.Requests n (.pattern scope type? i range)) :
    type? = if n.kind = .varPattern then none else n.type? := by
  cases h with
  | declarationPattern hk ht _ => rw [if_neg (by simp [hk]), ht]
  | varPattern hk _ => rw [if_pos hk]
  | recursivePattern hk _ => rw [if_neg (by simp [hk])]

/-- Nothing is left out below a node that declares. -/
theorem suppresses_of_declares {kind : Kind} (h : kind.declares = true) (i : Nat) :
    kind.suppresses i = false := by
  unfold Kind.declares at h
  split at h
  all_goals first | rfl | cases h

/-- Sites with names of one text, or without names, ask alike when their calls look alike. -/
theorem alikeRequests_map {o o' : Option Identifier}
    (h : o.map (fun i => names.text? i.name) = o'.map fun i => names'.text? i.name)
    {f f' : Identifier → Call}
    (hf : ∀ i i', o = some i → o' = some i' → names.text? i.name = names'.text? i'.name →
      sight ((f i).symbol names) = sight' ((f' i').symbol names')) :
    AlikeRequests sight sight' names names' (.ok (o.map f)) (.ok (o'.map f')) := by
  cases o with
  | none =>
      cases o' with
      | none => exact .nothing
      | some i' => cases h
  | some i =>
      cases o' with
      | none => cases h
      | some i' => exact .call (hf i i' rfl rfl (Option.some.inj h))

/-- What is seen of a variable bound by a pattern. -/
theorem sighting_pattern (root : Node) (names : Names) (scope : ScopeId) (type? : Option Node)
    (i : Identifier) (range : Range) :
    ((Call.pattern scope type? i range).symbol names).sighting root names =
      { text := names.text? i.name, kind := .patternVariable
        implicit := (type?.map (LocalSymbol.isVar names)).getD true, typed := type?.isSome
        call := none } := by
  cases type? <;> rfl

/-- Patterns look alike when their names have one text and their types one outline. -/
theorem sighting_pattern_eq {root root' : Node} {scope scope' : ScopeId}
    {type? type?' : Option Node}
    (ht : Option.Rel (fun t t' => t.outline names = t'.outline names') type? type?')
    {i i' : Identifier} (hi : names.text? i.name = names'.text? i'.name) {range range' : Range} :
    ((Call.pattern scope type? i range).symbol names).sighting root names =
      ((Call.pattern scope' type?' i' range').symbol names').sighting root' names' := by
  rw [sighting_pattern, sighting_pattern, hi]
  cases ht with
  | none => rfl
  | some htype =>
      simp only [Option.map_some, Option.getD_some, isVar_eq_of_outline_eq htype,
        Option.isSome_some]

/-- What is seen of a variable in an argument, the kind of its call included. -/
theorem sighting_out {forms : List Form} {w : Workshop} {root c : Node}
    (built : Workshop.ofForms forms = .ok w) (hr : w.Holds root) (hc : c.Within root)
    (names : Names) (scope : ScopeId) (enclosing : Option ScopeId) (type : Node) (i : Identifier) :
    ((Call.out scope enclosing type i c).symbol names).sighting root names =
      { text := names.text? i.name, kind := .outVariable
        implicit := LocalSymbol.isVar names type, typed := true, call := some c.kind } := by
  rw [← Node.kindOf?_id built hr hc]
  rfl

section

variable {forms forms' : List Form} {w w' : Workshop} {root root' : Node}
  (built : Workshop.ofForms forms = .ok w) (built' : Workshop.ofForms forms' = .ok w')
  (hr : w.Holds root) (hr' : w'.Holds root')
include built built' hr hr'

/-- Twins whose types have one outline ask alike for the variables of arguments: the ways up to
their calls are alike. -/
theorem alikeRequests_out {n n' : Node} (h : Node.Twin names names' root root' n n')
    {type type' : Node} (htype : type.outline names = type'.outline names')
    (scope scope' : ScopeId) (enclosing enclosing' : Option ScopeId) :
    AlikeRequests (LocalSymbol.sighting root names) (LocalSymbol.sighting root' names') names names'
      (((Tree.ofRoot root).declaringCall n).map fun call =>
        n.identifier?.map (.out scope enclosing type · call))
      (((Tree.ofRoot root').declaringCall n').map fun call =>
        n'.identifier?.map (.out scope' enclosing' type' · call)) := by
  rcases h.declaringCall built built' hr hr' with ⟨c, c', hc, hc', hcalls⟩ | ⟨e, e', he, he', hctx⟩
  · rw [hc, hc']
    refine alikeRequests_map (text?_identifier?_eq h.outline_eq) fun i i' _ _ htext => ?_
    obtain ⟨hw, hw'⟩ := hcalls.within
    rw [sighting_out built hr hw, sighting_out built' hr' hw', htext,
      isVar_eq_of_outline_eq htype, kind_eq_of_outline_eq hcalls.outline_eq]
  · rw [he, he']
    exact .error hctx

/-- Twins that are sites ask alike. -/
theorem alikeRequests_of_isSite (ht : s.tree = .ofRoot root) (ht' : s'.tree = .ofRoot root')
    {n n' : Node} (h : Node.Twin names names' root root' n n') (hs : n.isSite = true)
    (hs' : n'.isSite = true) :
    AlikeRequests (LocalSymbol.sighting root names) (LocalSymbol.sighting root' names') names
      names' (s.request n) (s'.request n') := by
  have hn := ((hr.within h.within.1).grammatical built).shaped
  have hn' := ((hr'.within h.within.2).grammatical built').shaped
  have hk := kind_eq_of_outline_eq h.outline_eq
  have hdeclares : n.kind.declares = true := by
    simp only [Node.isSite, Bool.and_eq_true] at hs
    exact hs.1
  have htypes := rel_type? h.outline_eq (suppresses_of_declares hdeclares)
  -- Twins are of one kind, so both sites are declaration expressions or neither is.
  rcases s.request_site hn hs with ⟨hkd, type, hty, hreq⟩ | ⟨hkd, type?, hreq, hasks⟩
  · rcases s'.request_site hn' hs' with ⟨-, type', hty', hreq'⟩ | ⟨hkd', -⟩
    · rw [hty, hty'] at htypes
      cases htypes with
      | some htype =>
          rw [hreq, hreq', ht, ht']
          exact alikeRequests_out built built' hr hr' h htype _ _ _ _
    · exact absurd (hk ▸ hkd) hkd'
  · rcases s'.request_site hn' hs' with ⟨hkd', -⟩ | ⟨-, type?', hreq', hasks'⟩
    · exact absurd (hk ▸ hkd') hkd
    · rw [hreq, hreq']
      refine alikeRequests_map (text?_identifier?_eq h.outline_eq) fun i i' hi hi' htext => ?_
      refine sighting_pattern_eq ?_ htext
      rw [(hasks i hi).type?_eq, (hasks' i' hi').type?_eq, ← hk]
      split
      · exact .none
      · exact htypes

/-- **Twins report alike**, whether they declare anything or not. -/
theorem alike_report (hf : s.factory = LocalSymbol.factory names)
    (hf' : s'.factory = LocalSymbol.factory names') (ht : s.tree = .ofRoot root)
    (ht' : s'.tree = .ofRoot root') {n n' : Node}
    (h : Node.Twin names names' root root' n n') :
    Run.Alike (LocalSymbol.sighting root names) (LocalSymbol.sighting root' names') (s.report n)
      (s'.report n') := by
  refine alike_report_of_requests hf hf' ?_
  have hk := kind_eq_of_outline_eq h.outline_eq
  have hempty := congrArg List.isEmpty (Node.writings_eq_of_outline_eq h.outline_eq)
  rw [List.isEmpty_map, List.isEmpty_map] at hempty
  have hsite : n.isSite = n'.isSite := by rw [Node.isSite, Node.isSite, hk, hempty]
  cases hs : n.isSite with
  | true => exact alikeRequests_of_isSite built built' hr hr' ht ht' h hs (hsite ▸ hs)
  | false =>
      rw [request, request, Node.site?_of_not_isSite hs, Node.site?_of_not_isSite (hsite ▸ hs)]
      exact .nothing

/-- **Only the outline of a tree matters** for what a search of the tree finds. -/
theorem outcome_alike (scope scope' : ScopeId) (enclosing enclosing' : Option ScopeId)
    (h : root.outline names = root'.outline names') (p p' : Progress SymbolId LocalSymbol) :
    let outcome := (find ⟨.ofRoot root, LocalSymbol.factory names, scope, enclosing⟩
      (some root)).outcome p
    let outcome' := (find ⟨.ofRoot root', LocalSymbol.factory names', scope', enclosing'⟩
      (some root')).outcome p'
    outcome.1.mapError (·.context) = outcome'.1.mapError (·.context) ∧
      outcome.2.map (LocalSymbol.sighting root names) =
        outcome'.2.map (LocalSymbol.sighting root' names') := by
  intro outcome outcome'
  have hg := hr.grammatical built
  have hg' := hr'.grammatical built'
  let s : Locals := ⟨.ofRoot root, LocalSymbol.factory names, scope, enclosing⟩
  let s' : Locals := ⟨.ofRoot root', LocalSymbol.factory names', scope', enclosing'⟩
  -- The two searches come to twins in lock step, and twins report alike.
  have hreached := (Node.Twin.root h).forall₂_reached true hg hg'
  have halike : Run.Alike (LocalSymbol.sighting root names) (LocalSymbol.sighting root' names')
      (s.visit root) (s'.visit root') := by
    rw [s.visit_eq_reached hg, s'.visit_eq_reached hg']
    exact .forM (fun _ _ hrr => alike_report built built' hr hr' rfl rfl rfl rfl hrr) hreached
  obtain ⟨xs, xs', r, r', hxs, hxs', hsights, hends⟩ := halike
  have hout : outcome = (r, number p.state xs) := hxs.outcome_eq p
  have hout' : outcome' = (r', number p'.state xs') := hxs'.outcome_eq p'
  rw [hout, hout']
  refine ⟨hends, ?_⟩
  rw [map_number (fun _ _ => rfl), map_number (fun _ _ => rfl), hsights]

end

/-! ### The expressions `(x => 1) is var y` and `(y => (this)) is var y` -/

section

variable (x y : Name)

def sampleNumberTest : Node :=
  .mk ⟨⟨.isPatternExpression, 7, ⟨0, 5⟩⟩, [], 0⟩
    [.mk ⟨⟨.simpleLambdaExpression, 4, ⟨0, 3⟩⟩, [], 0⟩
      [.mk ⟨⟨.parameter, 1, ⟨0, 1⟩⟩, [.identifier ⟨0, ⟨0, 1⟩, x⟩], 0⟩ [],
        .mk ⟨⟨.numericLiteralExpression, 3, ⟨2, 3⟩⟩,
          [.token ⟨.numericLiteralToken, 2, ⟨2, 3⟩⟩], 0⟩ []],
      .mk ⟨⟨.varPattern, 6, ⟨4, 5⟩⟩, [.identifier ⟨5, ⟨4, 5⟩, y⟩], 0⟩ []]

def sampleThisTest : Node :=
  .mk ⟨⟨.isPatternExpression, 8, ⟨0, 8⟩⟩, [], 0⟩
    [.mk ⟨⟨.simpleLambdaExpression, 5, ⟨0, 6⟩⟩, [], 0⟩
      [.mk ⟨⟨.parameter, 1, ⟨0, 1⟩⟩, [.identifier ⟨0, ⟨0, 1⟩, x⟩], 0⟩ [],
        .mk ⟨⟨.parenthesizedExpression, 4, ⟨2, 6⟩⟩, [], 0⟩
          [.mk ⟨⟨.thisExpression, 3, ⟨2, 6⟩⟩, [], 0⟩ []]],
      .mk ⟨⟨.varPattern, 7, ⟨7, 8⟩⟩, [.identifier ⟨6, ⟨7, 8⟩, y⟩], 0⟩ []]

end

/-- `(p => body) is var y` -/
def sampleTestForm (p : String) (body : Form) : Form :=
  .make .isPattern [[.make .simpleLambda [[.make (.parameter p) [[]]], [body]]],
    [.make .varPattern [[.designation "y"]]]]

theorem run_shelve_sampleNumberTest (names : Names) :
    (Workshop.shelve [sampleTestForm "x" (.make (.numericLiteral "1") [])]).run { names } =
      .ok ((), ⟨8, 6, ((names.intern "x").2.intern "y").2,
        #[some (.node (sampleNumberTest (names.intern "x").1
          ((names.intern "x").2.intern "y").1))]⟩) := by
  conv => lhs; cbv
  rfl

theorem run_shelve_sampleThisTest (names : Names) :
    (Workshop.shelve [sampleTestForm "y" (.make .parenthesized [[.make .thisExpression []]])]).run
      { names } = .ok ((), ⟨9, 9, ((names.intern "y").2.intern "y").2,
        #[some (.node (sampleThisTest (names.intern "y").1
          ((names.intern "y").2.intern "y").1))]⟩) := by
  conv => lhs; cbv
  rfl

theorem sightings_sampleNumberTest {x y : Name} {names : Names}
    (h : names.text? y = some "y") :
    let root := sampleNumberTest x y
    let outcome := (find ⟨.ofRoot root, LocalSymbol.factory names, 0, none⟩
      (some root)).outcome ⟨#[], 0⟩
    outcome.2.map (LocalSymbol.sighting root names) =
      [⟨some "y", .patternVariable, true, false, none⟩] := by
  intro root outcome
  let s : Locals := ⟨.ofRoot root, LocalSymbol.factory names, 0, none⟩
  have hfind : s.find (some root) =
      Search.append (s.factory.patternVariable 0 none ⟨5, ⟨4, 5⟩, y⟩ ⟨4, 5⟩) := by
    simp [Search.find, Search.visit_eq, Search.visitAll_cons, Search.visitAll_nil, root,
      sampleNumberTest, Node.searched, Node.kind, Node.label, Node.children, Search.report,
      Node.site?, Node.leaves, Leaf.identifier?]
    rfl
  change ((s.find _).outcome ⟨#[], 0⟩).2.map _ = _
  rw [hfind, ← h]
  rfl

/-- The variable of the second expression has another number and stands at another place, and it
is found like that of the first. -/
theorem outcome_alike_sampleTests : ∃ (w w' : Workshop) (x y x' y' : Name),
    Workshop.ofForms [sampleTestForm "x" (.make (.numericLiteral "1") [])] = .ok w ∧
    Workshop.ofForms
      [sampleTestForm "y" (.make .parenthesized [[.make .thisExpression []]])] = .ok w' ∧
    w.Holds (sampleNumberTest x y) ∧ w'.Holds (sampleThisTest x' y') ∧
    (sampleNumberTest x y).outline w.names = (sampleThisTest x' y').outline w'.names ∧
      let root := sampleNumberTest x y
      let root' := sampleThisTest x' y'
      let outcome := (find ⟨.ofRoot root, LocalSymbol.factory w.names, 0, none⟩
        (some root)).outcome ⟨#[], 0⟩
      let outcome' := (find ⟨.ofRoot root', LocalSymbol.factory w'.names, 0, none⟩
        (some root')).outcome ⟨#[], 0⟩
      root.id ≠ root'.id ∧ outcome.1.mapError (·.context) = outcome'.1.mapError (·.context) ∧
        outcome'.2.map (LocalSymbol.sighting root' w'.names) =
          [⟨some "y", .patternVariable, true, false, none⟩] := by
  let names := (Names.empty.intern "x").2
  let names' := (Names.empty.intern "y").2
  let x : Name := (Names.empty.intern "x").1
  let x' : Name := (Names.empty.intern "y").1
  let y : Name := (names.intern "y").1
  let y' : Name := (names'.intern "y").1
  let w : Workshop := ⟨8, 6, (names.intern "y").2, #[some (.node (sampleNumberTest x y))]⟩
  let w' : Workshop := ⟨9, 9, (names'.intern "y").2, #[some (.node (sampleThisTest x' y'))]⟩
  have built : Workshop.ofForms [sampleTestForm "x" (.make (.numericLiteral "1") [])] =
      .ok w := by
    rw [Workshop.ofForms, run_shelve_sampleNumberTest]
    rfl
  have built' : Workshop.ofForms
      [sampleTestForm "y" (.make .parenthesized [[.make .thisExpression []]])] = .ok w' := by
    rw [Workshop.ofForms, run_shelve_sampleThisTest]
    rfl
  have held : w.Holds (sampleNumberTest x y) := ⟨_, List.mem_singleton_self _, .refl _⟩
  have held' : w'.Holds (sampleThisTest x' y') := ⟨_, List.mem_singleton_self _, .refl _⟩
  have htext : w.names.text? y = some "y" := names.text?_intern "y"
  have houtline : (sampleNumberTest x y).outline w.names =
      (sampleThisTest x' y').outline w'.names := by
    have htext' : w'.names.text? y' = some "y" := names'.text?_intern "y"
    simp [sampleNumberTest, sampleThisTest, Node.outline, Node.outlineFrom, Kind.suppresses,
      Leaf.writing, htext, htext']
  obtain ⟨hends, hsightings⟩ :=
    outcome_alike built built' held held' 0 0 none none houtline ⟨#[], 0⟩ ⟨#[], 0⟩
  exact ⟨w, w', x, y, x', y', built, built', held, held', houtline, by decide, hends,
    hsightings.symm.trans (sightings_sampleNumberTest htext)⟩

end Search

end InlineLocals
