import Mathlib
import InlineLocals.Proofs.Declaration.Policy
import InlineLocals.Proofs.Syntax.Identity

/-!
# Declaration — Found

What a search finds.  A site is a node that declares a variable or a discard (`Node.isSite`); the
sites that a search comes to are those at the ends of admitted paths, and it takes them in the
order of its walk (`Node.SitesInOrder`).  A site with a name makes one call to the factory, and
`Search.Requests` says which one.  `Progress.after` is what a list of calls makes of the progress:
the factory answers each of them in turn, and the answers are appended.

* `SitesInOrder.unique`: the paths and the order settle the list of sites.
* `run_report`: the report of a node makes the call that is asked for, or fails and makes none.
* `find_calls`: a search that succeeds makes the calls of the sites with a name, in order and each
  of them once, and no other call.
-/

namespace InlineLocals

/-! ### Sites -/

/-- The kinds of nodes that declare variables inside expressions. -/
def Kind.declares : Kind → Bool
  | .declarationExpression | .declarationPattern | .varPattern | .recursivePattern => true
  | _ => false

namespace Node

/-- The node declares a variable or a discard: it is of a kind that declares, and it holds a
designation. -/
def isSite (n : Node) : Bool := n.kind.declares && !n.leaves.isEmpty

/-- The sites that a search from `n` comes to, with their paths and in the order of the walk. -/
structure SitesInOrder (n : Node) (sites : List (List Nat × Node)) : Prop where
  order : (sites.map Prod.fst).Pairwise Before
  mem_iff : ∀ path m, (path, m) ∈ sites ↔
    n.Admits true path ∧ n.at? path = some m ∧ m.isSite = true

/-- What a search from a node comes to lies within it and is a site. -/
theorem SitesInOrder.site {n : Node} {sites : List (List Nat × Node)} (h : n.SitesInOrder sites)
    (hn : n.Grammatical) {m : Node} (hm : m ∈ sites.map Prod.snd) :
    m.Within n ∧ m.Shaped ∧ m.isSite = true := by
  obtain ⟨⟨path, k⟩, hk, rfl⟩ := List.mem_map.mp hm
  obtain ⟨-, hat, hs⟩ := (h.mem_iff path k).mp hk
  exact ⟨⟨path, hat⟩, hn k ⟨path, hat⟩, hs⟩

theorem sitesInOrder_filter_reached (n : Node) :
    n.SitesInOrder ((n.reached true).filter (·.2.isSite)) where
  order := (pairwise_reached true n).sublist (List.filter_sublist.map _)
  mem_iff path m := by rw [List.mem_filter, mem_reached, and_assoc]

/-- A node has one list of sites only: the paths and the order settle it. -/
theorem SitesInOrder.unique {n : Node} {xs ys : List (List Nat × Node)} (hx : n.SitesInOrder xs)
    (hy : n.SitesInOrder ys) : xs = ys := by
  have hpx := List.pairwise_map.mp hx.order
  have hpy := List.pairwise_map.mp hy.order
  have nodup {zs : List (List Nat × Node)} (h : zs.Pairwise fun a b => Before a.1 b.1) :
      zs.Nodup := by
    refine h.imp ?_
    rintro a b hab rfl
    exact before_asymm hab hab
  have perm : xs.Perm ys := by
    refine (List.perm_ext_iff_of_nodup (nodup hpx) (nodup hpy)).mpr ?_
    rintro ⟨path, m⟩
    rw [hx.mem_iff, hy.mem_iff]
  exact perm.eq_of_pairwise (fun _ _ _ _ hab hba => absurd hba (before_asymm hab)) hpx hpy

/-- A site has one leaf, the designation. -/
theorem Shaped.designation {n : Node} (h : n.Shaped) (hs : n.isSite = true) :
    ∃ designation, n.leaves = [designation] := by
  simp only [isSite, Bool.and_eq_true, Bool.not_eq_true', List.isEmpty_eq_false_iff] at hs
  obtain ⟨hk, hne⟩ := hs
  have hl := h.leaves
  unfold Kind.declares at hk
  split at hk
  iterate 3
    · next he =>
      rw [he] at hl
      obtain ⟨designation, hn, -⟩ := Room.fit_singleton.mp hl
      exact ⟨designation, hn⟩
  · next he =>
    -- A recursive pattern need not name what it matches, but then it is no site.
    rw [he] at hl
    obtain hn | ⟨designation, hn, -⟩ := Room.fit_atMostOne.mp hl
    · exact absurd hn hne
    · exact ⟨designation, hn⟩
  · cases hk

theorem mem_leaves_of_identifier? {n : Node} {i : Identifier} (h : n.identifier? = some i) :
    .identifier i ∈ n.leaves := by
  obtain ⟨leaf, hl, hi⟩ := List.exists_of_findSome?_eq_some h
  cases leaf with
  | token _ | discard _ _ => cases hi
  | identifier j => cases hi; exact hl

theorem site?_of_not_isSite {n : Node} (h : n.isSite = false) : n.site? = none := by
  unfold site?
  split
  all_goals first | rfl | simp_all [isSite, Kind.declares]

end Node

/-! ### Answers -/

/-- The answers of a factory to a list of calls, and its state after them. -/
def SymbolFactory.answers {σ S : Type} (factory : SymbolFactory σ S) : List Call → σ → List S × σ
  | [], state => ([], state)
  | call :: calls, state =>
    match call.replay factory state with
    | (symbol, state) =>
      match factory.answers calls state with
      | (symbols, state) => (symbol :: symbols, state)

/-- What the calls of the list, and no others, make of the progress: the factory answers each of
them in turn, and every answer is appended. -/
def Progress.after {σ S : Type} (p : Progress σ S) (factory : SymbolFactory σ S)
    (calls : List Call) : Progress σ S where
  found := p.found ++ (factory.answers calls p.state).1
  state := (factory.answers calls p.state).2

namespace Progress

variable {σ S : Type}

theorem after_nil (p : Progress σ S) (factory : SymbolFactory σ S) : p.after factory [] = p := by
  simp [after, SymbolFactory.answers]

theorem after_cons (p : Progress σ S) (factory : SymbolFactory σ S) (call : Call)
    (calls : List Call) :
    p.after factory (call :: calls) = (p.after factory [call]).after factory calls := by
  simp [after, SymbolFactory.answers]

theorem after_append (factory : SymbolFactory σ S) : ∀ (p : Progress σ S) (xs ys : List Call),
    p.after factory (xs ++ ys) = (p.after factory xs).after factory ys
  | p, [], ys => by rw [List.nil_append, after_nil]
  | p, call :: xs, ys => by
      rw [List.cons_append, after_cons, after_append factory _ xs ys, ← after_cons]

end Progress

namespace Search

variable {σ S : Type}

/-- The call that a site with a name makes to the factory.  It tells the scope, the type and the
name; a pattern tells its range, and a declaration expression the scope around and the call in
whose argument list it stands. -/
inductive Requests (s : Search σ S) (n : Node) : Call → Prop where
  | declarationPattern {type : Node} {name : Identifier} (hk : n.kind = .declarationPattern)
      (ht : n.type? = some type) (hn : n.identifier? = some name) :
      Requests s n (.pattern s.scope (some type) name n.range)
  | varPattern {name : Identifier} (hk : n.kind = .varPattern) (hn : n.identifier? = some name) :
      Requests s n (.pattern s.scope none name n.range)
  | recursivePattern {name : Identifier} (hk : n.kind = .recursivePattern)
      (hn : n.identifier? = some name) : Requests s n (.pattern s.scope n.type? name n.range)
  | declarationExpression {type call : Node} {name : Identifier}
      (hk : n.kind = .declarationExpression) (ht : n.type? = some type)
      (hn : n.identifier? = some name) (hc : s.tree.declaringCall n = .ok call) :
      Requests s n (.out s.scope s.enclosing type name call)

/-- What a report of `n` asks of the factory, if it asks anything. -/
def request (s : Search σ S) (n : Node) : Except ContextError (Option Call) :=
  match n.site? with
  | none => .ok none
  | some (.pattern type designation position) =>
    .ok (designation.identifier?.map (.pattern s.scope type · position))
  | some (.expression type designation) => do
    let call ← s.tree.declaringCall n
    return designation.identifier?.map (.out s.scope s.enclosing type · call)

/-- What a site asks for depends on the tree for a declaration expression only. -/
theorem request_site (s : Search σ S) {n : Node} (h : n.Shaped) (hs : n.isSite = true) :
    (n.kind = .declarationExpression ∧ ∃ type, n.type? = some type ∧
      s.request n = (s.tree.declaringCall n).map fun call =>
        n.identifier?.map (.out s.scope s.enclosing type · call)) ∨
    (n.kind ≠ .declarationExpression ∧ ∃ type?,
      s.request n = .ok (n.identifier?.map (.pattern s.scope type? · n.range)) ∧
      ∀ name, n.identifier? = some name → s.Requests n (.pattern s.scope type? name n.range)) := by
  obtain ⟨designation, hl⟩ := h.designation hs
  have hi : n.identifier? = designation.identifier? := by simp [Node.identifier?, hl]
  have hk : n.kind.declares = true := by simp_all [Node.isSite]
  unfold Kind.declares at hk
  split at hk
  · next he =>
    obtain ⟨type, -, -, ht⟩ := h.declaredType (.inl he)
    refine .inl ⟨he, type, ht, ?_⟩
    rw [request, Node.site?, he, ht, hl, hi]
    rfl
  · next he =>
    obtain ⟨type, -, -, ht⟩ := h.declaredType (.inr he)
    refine .inr ⟨by simp [he], some type, ?_, fun name hn => .declarationPattern he ht hn⟩
    rw [request, Node.site?, he, ht, hl, hi]
  · next he =>
    refine .inr ⟨by simp [he], none, ?_, fun name hn => .varPattern he hn⟩
    rw [request, Node.site?, he, hl, hi]
  · next he =>
    refine .inr ⟨by simp [he], n.type?, ?_, fun name hn => .recursivePattern he hn⟩
    rw [request, Node.site?, he, hl, hi]
  · cases hk

theorem run_append (s : Search σ S) (call : Call) (p : Progress σ S) :
    (append (call.replay s.factory)).run p = .ok () (p.after s.factory [call]) := by
  cases p
  simp [append, Progress.after, SymbolFactory.answers]

/-- A report makes the call that is asked for, or fails and makes none. -/
theorem run_report (s : Search σ S) (n : Node) (p : Progress σ S) : (s.report n).run p =
    match s.request n with
    | .ok call? => .ok () (p.after s.factory call?.toList)
    | .error e => .error e p := by
  -- A report that makes no call leaves the progress as it is: there is no site, or it has no name.
  unfold report request
  cases n.site? with
  | none => simp [Progress.after_nil]
  | some site =>
      cases site with
      | pattern type designation position =>
          cases hn : designation.identifier? with
          | none => simp [hn, Progress.after_nil]
          | some name =>
              simp only [hn]
              exact run_append s (.pattern s.scope type name position) p
      | expression type designation =>
          cases s.tree.declaringCall n with
          | error e => rfl
          | ok call =>
              cases hn : designation.identifier? with
              | none => simp [hn, Progress.after_nil]
              | some name =>
                  simp only [hn]
                  exact run_append s (.out s.scope s.enclosing type name call) p

/-- The calls that the reports of the nodes of a list ask for, when none of them fails. -/
def calls (s : Search σ S) (ns : List Node) : List Call :=
  ns.flatMap fun n =>
    match s.request n with
    | .ok call? => call?.toList
    | .error _ => []

/-- Reports that go through make their calls, in order. -/
theorem run_forM_report (s : Search σ S) : ∀ {ns : List Node} (p : Progress σ S),
    (∀ n ∈ ns, ∃ call?, s.request n = .ok call?) →
      (forM ns s.report).run p = .ok () (p.after s.factory (s.calls ns))
  | [], p, _ => by
      rw [calls, List.flatMap_nil, Progress.after_nil]
      rfl
  | n :: ns, p, h => by
      obtain ⟨call?, hc⟩ := h n List.mem_cons_self
      have hr := run_report s n p
      rw [hc] at hr
      have ih := run_forM_report s (p.after s.factory call?.toList) fun m hm =>
        h m (List.mem_cons_of_mem _ hm)
      rw [List.forM_cons, EStateM.run_bind, hr]
      simp only [ih, calls, List.flatMap_cons, hc, Progress.after_append]

/-- The search stops at the first report that fails, and keeps what was found before it. -/
theorem run_forM_report_of_error (s : Search σ S) {before : List Node} {d : Node}
    {e : ContextError} (rest : List Node) (p : Progress σ S)
    (h : ∀ n ∈ before, ∃ call?, s.request n = .ok call?) (hd : s.request d = .error e) :
    (forM (before ++ d :: rest) s.report).run p =
      .error e (p.after s.factory (s.calls before)) := by
  have hr := run_report s d (p.after s.factory (s.calls before))
  rw [hd] at hr
  rw [List.forM_append, EStateM.run_bind, run_forM_report s p h]
  simp only [List.forM_cons, EStateM.run_bind, hr]

/-! ### What a search finds -/

/-- Reports matter at the sites only. -/
theorem forM_report_filter (s : Search σ S) (ns : List Node) :
    forM (ns.filter Node.isSite) s.report = forM ns s.report := by
  induction ns with
  | nil => rfl
  | cons n ns ih =>
      cases hn : n.isSite with
      | true => rw [List.filter_cons_of_pos hn, List.forM_cons, List.forM_cons, ih]
      | false =>
          have hr : s.report n = pure () := by rw [report, Node.site?_of_not_isSite hn]
          rw [List.filter_cons_of_neg (by simp [hn]), List.forM_cons, hr, ih]
          simp

/-- The search is the reports of the sites, in the order of the walk. -/
theorem exists_sites (s : Search σ S) {n : Node} (h : n.Grammatical) :
    ∃ sites, n.SitesInOrder sites ∧ s.visit n = forM (sites.map Prod.snd) s.report := by
  refine ⟨_, n.sitesInOrder_filter_reached, ?_⟩
  have hmap : ((n.reached true).filter (·.2.isSite)).map Prod.snd =
      ((n.reached true).map Prod.snd).filter Node.isSite := by
    rw [List.filter_map]
    rfl
  rw [visit_eq_reached s h, hmap, forM_report_filter, List.forM_map]

/-- Either every report goes through, or there is a first one that fails. -/
theorem requests_or_error (s : Search σ S) (ns : List Node) :
    (∀ n ∈ ns, ∃ call?, s.request n = .ok call?) ∨
      ∃ before d rest e, ns = before ++ d :: rest ∧
        (∀ n ∈ before, ∃ call?, s.request n = .ok call?) ∧ s.request d = .error e := by
  induction ns with
  | nil => exact .inl nofun
  | cons n ns ih =>
      cases hn : s.request n with
      | error e => exact .inr ⟨[], n, ns, e, rfl, nofun, hn⟩
      | ok call? =>
          rcases ih with h | ⟨before, d, rest, e, rfl, h, hd⟩
          · exact .inl (List.forall_mem_cons.mpr ⟨⟨call?, hn⟩, h⟩)
          · exact .inr ⟨n :: before, d, rest, e, rfl,
              List.forall_mem_cons.mpr ⟨⟨call?, hn⟩, h⟩, hd⟩

/-- A site asks for one call when it has a name, and for none otherwise. -/
theorem request_named (s : Search σ S) {n : Node} (h : n.Shaped) (hs : n.isSite = true)
    {call? : Option Call} (hr : s.request n = .ok call?) :
    (n.identifier? = none ∧ call? = none) ∨
      (n.identifier?.isSome = true ∧ ∃ call, call? = some call ∧ s.Requests n call) := by
  rcases s.request_site h hs with ⟨hk, type, ht, e⟩ | ⟨hk, type?, e, hreq⟩
  · cases hc : s.tree.declaringCall n with
    | error err =>
        rw [e, hc] at hr
        cases hr
    | ok call =>
        rw [e, hc] at hr
        cases hr
        cases hn : n.identifier? with
        | none => exact .inl ⟨rfl, rfl⟩
        | some name => exact .inr ⟨rfl, _, rfl, .declarationExpression hk ht hn hc⟩
  · rw [e] at hr
    cases hr
    cases hn : n.identifier? with
    | none => exact .inl ⟨rfl, rfl⟩
    | some name => exact .inr ⟨rfl, _, rfl, hreq name hn⟩

/-- Only sites ask for calls. -/
theorem requests_of_request (s : Search σ S) {n : Node} (h : n.Shaped) {call : Call}
    (hr : s.request n = .ok (some call)) : s.Requests n call := by
  cases hs : n.isSite with
  | false =>
      rw [request, Node.site?_of_not_isSite hs] at hr
      cases hr
  | true =>
      rcases s.request_named h hs hr with ⟨-, hnone⟩ | ⟨-, call', hsome, hreq⟩
      · cases hnone
      · cases hsome
        exact hreq

/-- The nodes of a list that have a name of their own: sites that declare a variable. -/
def named (ns : List Node) : List Node := ns.filter (·.identifier?.isSome)

/-- The calls of the sites of a list are one for each site with a name. -/
theorem forall₂_calls (s : Search σ S) : ∀ {ns : List Node},
    (∀ n ∈ ns, n.Shaped ∧ n.isSite = true) → (∀ n ∈ ns, ∃ call?, s.request n = .ok call?) →
      List.Forall₂ s.Requests (named ns) (s.calls ns)
  | [], _, _ => .nil
  | n :: ns, hs, hr => by
      obtain ⟨call?, hc⟩ := hr n List.mem_cons_self
      obtain ⟨hsh, hsite⟩ := hs n List.mem_cons_self
      have ih := forall₂_calls s (fun m hm => hs m (List.mem_cons_of_mem _ hm))
        fun m hm => hr m (List.mem_cons_of_mem _ hm)
      rw [named, calls, List.flatMap_cons, hc, List.filter_cons]
      rcases s.request_named hsh hsite hc with ⟨hn, rfl⟩ | ⟨hn, call, rfl, hreq⟩
      · rw [hn]
        exact ih
      · rw [if_pos hn]
        exact .cons hreq ih

/-- **What a search finds.**  A search that succeeds has made one call for each site with a name
that it comes to, in the order of the walk, and appended the answer; it has made no other call. -/
theorem find_calls (s : Search σ S) {forms : List Form} {w : Workshop} {n : Node}
    (built : Workshop.ofForms forms = .ok w) (held : w.Holds n) {p p' : Progress σ S}
    (run : (s.find (some n)).run p = .ok () p') :
    ∃ sites calls, n.SitesInOrder sites ∧
      List.Forall₂ s.Requests (named (sites.map Prod.snd)) calls ∧
      p' = p.after s.factory calls := by
  have hg := held.grammatical built
  obtain ⟨sites, hsites, hv⟩ := s.exists_sites hg
  rw [find, hv] at run
  rcases s.requests_or_error (sites.map Prod.snd) with h | ⟨before, d, rest, e, hd, h, he⟩
  · rw [s.run_forM_report p h] at run
    cases run
    exact ⟨sites, _, hsites, s.forall₂_calls (fun m hm => (hsites.site hg hm).2) h, rfl⟩
  · rw [hd, s.run_forM_report_of_error rest p h he] at run
    cases run

/-! ### The statement `if (this is { : var x } y) this is var z;` -/

section

variable (x y z : Name)

/-- The condition; the pattern inside of the other one is complete before it. -/
def sampleCondition : Node :=
  .mk ⟨⟨.isPatternExpression, 7, ⟨0, 8⟩⟩, [], 0⟩
    [.mk ⟨⟨.thisExpression, 1, ⟨0, 4⟩⟩, [], 0⟩ [],
      .mk ⟨⟨.recursivePattern, 6, ⟨5, 8⟩⟩, [.identifier ⟨5, ⟨7, 8⟩, y⟩], 0⟩
        [.mk ⟨⟨.subpattern, 4, ⟨5, 6⟩⟩, [], 0⟩
          [.mk ⟨⟨.varPattern, 3, ⟨5, 6⟩⟩, [.identifier ⟨2, ⟨5, 6⟩, x⟩], 0⟩ []]]]

/-- The site in the branch. -/
def sampleBranchPattern : Node :=
  .mk ⟨⟨.varPattern, 11, ⟨14, 15⟩⟩, [.identifier ⟨10, ⟨14, 15⟩, z⟩], 0⟩ []

def sampleConditional : Node :=
  .mk ⟨⟨.ifStatement, 14, ⟨0, 15⟩⟩, [], 0⟩
    [sampleCondition x y,
      .mk ⟨⟨.expressionStatement, 13, ⟨9, 15⟩⟩, [], 0⟩
        [.mk ⟨⟨.isPatternExpression, 12, ⟨9, 15⟩⟩, [], 0⟩
          [.mk ⟨⟨.thisExpression, 9, ⟨9, 13⟩⟩, [], 0⟩ [], sampleBranchPattern z]]]

end

/-- The test `this is p`. -/
def sampleTest (p : Form) : Form := .make .isPattern [[.make .thisExpression []], [p]]

/-- The pattern `var x`. -/
def sampleVar (text : String) : Form := .make .varPattern [[.designation text]]

def sampleConditionalForm : Form :=
  .make .ifStatement
    [[sampleTest (.make .recursivePattern
        [[], [.make (.subpattern none) [[sampleVar "x"]]], [], [.designation "y"]])],
      [.make .expressionStatement [[sampleTest (sampleVar "z")]]], []]

theorem run_shelve_sampleConditionalForm (names : Names) :
    let x := names.intern "x"
    let y := x.2.intern "y"
    let z := y.2.intern "z"
    (Workshop.shelve [sampleConditionalForm]).run { names } =
      .ok ((), ⟨15, 16, z.2, #[some (.node (sampleConditional x.1 y.1 z.1))]⟩) := by
  intro x y z
  conv => lhs; cbv
  rfl

/-- The two variables of the condition are found, the one inside first.  The one in the branch is
not: there is a site, but the step to the branch is barred. -/
theorem find_calls_sampleConditional : ∃ (w : Workshop) (x y z : Name),
    Workshop.ofForms [sampleConditionalForm] = .ok w ∧ w.Holds (sampleConditional x y z) ∧
      let n := sampleConditional x y z
      let s : Search Unit Call := ⟨.ofRoot n, Call.recorder, 0, none⟩
      let p' : Progress Unit Call := ⟨#[.pattern 0 none ⟨2, ⟨5, 6⟩, x⟩ ⟨5, 6⟩,
        .pattern 0 none ⟨5, ⟨7, 8⟩, y⟩ ⟨5, 8⟩], ()⟩
      (s.find (some n)).run ⟨#[], ()⟩ = .ok () p' ∧
      n.at? [1, 0, 1] = some (sampleBranchPattern z) ∧ (sampleBranchPattern z).isSite = true ∧
      ¬ n.Admits true [1, 0, 1] ∧
      ∃ sites calls, n.SitesInOrder sites ∧
        List.Forall₂ s.Requests (named (sites.map Prod.snd)) calls ∧
        p' = Progress.after ⟨#[], ()⟩ s.factory calls := by
  let x := Names.empty.intern "x"
  let y := x.2.intern "y"
  let z := y.2.intern "z"
  let n := sampleConditional x.1 y.1 z.1
  let w : Workshop := ⟨15, 16, z.2, #[some (.node n)]⟩
  have built : Workshop.ofForms [sampleConditionalForm] = .ok w := by
    rw [Workshop.ofForms, run_shelve_sampleConditionalForm]
    rfl
  have held : w.Holds n := ⟨n, List.mem_singleton_self _, .refl n⟩
  let s : Search Unit Call := ⟨.ofRoot n, Call.recorder, 0, none⟩
  have run : (s.find (some n)).run ⟨#[], ()⟩ = .ok () (Progress.after ⟨#[], ()⟩ s.factory
      [.pattern 0 none ⟨2, ⟨5, 6⟩, x.1⟩ ⟨5, 6⟩, .pattern 0 none ⟨5, ⟨7, 8⟩, y.1⟩ ⟨5, 8⟩]) := by
    rw [find, visit_eq_reached s (held.grammatical built)]
    rfl
  have barred : ¬ n.Admits true [1, 0, 1] := by
    rintro ⟨branch, -, hbars, -⟩
    cases hbars
  exact ⟨w, x.1, y.1, z.1, built, held, run, rfl, rfl, barred, s.find_calls built held run⟩

end Search

end InlineLocals
