import Mathlib
import InlineLocals.Symbol.Local
import InlineLocals.Proofs.Declaration.CallSite
import InlineLocals.Proofs.Declaration.Found

/-!
# Declaration — Outcome

When a search fails, and with what.  In the tree of a root that the workshop holds, a site can
only fail when it is a declaration expression that stands in no call, so a search succeeds exactly
when all declaration expressions it comes to stand in calls of the tree.  Otherwise it stops at
the first one that does not, with what was found before it (`Search.find_outcome`).

A declaration expression by itself is searched by its report, for a type declares nothing.  It is
accepted exactly when a call of the tree has it as an argument, and that call is the one that the
factory is told (`Search.declaration_accepted_iff`).
-/

namespace InlineLocals

namespace Node

theorem isSite_of_isType {n : Node} (h : n.kind.isType = true) : n.isSite = false := by
  have := Kind.forall_of_all (P := fun kind => !kind.isType || !kind.declares) (by decide) n.kind
  simp_all [isSite]

theorem Shaped.isSite_of_declarationExpression {n : Node} (h : n.Shaped)
    (hk : n.kind = .declarationExpression) : n.isSite = true := by
  have hl := h.leaves
  rw [hk] at hl
  obtain ⟨designation, rest, hn, -, -⟩ := Room.fit_one.mp hl
  simp [isSite, hk, hn, Kind.declares]

end Node

namespace Search

variable {σ S : Type}

/-! ### The call `this(out int x)` -/

/-- The declared type. -/
def sampleType : Node :=
  .mk ⟨⟨.predefinedType, 3, ⟨5, 8⟩⟩, [.token ⟨.intKeyword, 2, ⟨5, 8⟩⟩], 0⟩ []

/-- The declaration in the call; `x` is the name that the workshop has for the text. -/
def sampleDeclaration (x : Name) : Node :=
  .mk ⟨⟨.declarationExpression, 5, ⟨5, 10⟩⟩, [.identifier ⟨4, ⟨9, 10⟩, x⟩], 0⟩ [sampleType]

def sampleArgument (x : Name) : Node :=
  .mk ⟨⟨.argument, 7, ⟨5, 14⟩⟩, [.token ⟨.outKeyword, 6, ⟨11, 14⟩⟩], 0⟩ [sampleDeclaration x]

def sampleList (x : Name) : Node :=
  .mk ⟨⟨.argumentList, 8, ⟨5, 14⟩⟩, [], 0⟩ [sampleArgument x]

def sampleCall (x : Name) : Node :=
  .mk ⟨⟨.invocationExpression, 9, ⟨0, 14⟩⟩, [], 0⟩
    [.mk ⟨⟨.thisExpression, 1, ⟨0, 4⟩⟩, [], 0⟩ [], sampleList x]

def sampleForm : Form :=
  .invocation (.make .thisExpression []) [.outDeclaration (.predefinedType .intKeyword) "x"]

theorem run_shelve_sampleForm (names : Names) : (Workshop.shelve [sampleForm]).run { names } =
    .ok ((), ⟨10, 15, (names.intern "x").2,
      #[some (.node (sampleCall (names.intern "x").1))]⟩) := by
  conv => lhs; cbv
  rfl

theorem exists_sampleCall : ∃ (w : Workshop) (x : Name),
    Workshop.ofForms [sampleForm] = .ok w ∧ .node (sampleCall x) ∈ w.pieces := by
  let x : Name := (Names.empty.intern "x").1
  refine ⟨⟨10, 15, (Names.empty.intern "x").2, #[some (.node (sampleCall x))]⟩, x, ?_,
    List.mem_singleton_self _⟩
  rw [Workshop.ofForms, run_shelve_sampleForm .empty]
  rfl

/-- The call has the declaration as its argument. -/
theorem hasArgument_sampleCall (x : Name) : (sampleCall x).HasArgument (sampleDeclaration x) :=
  ⟨rfl, sampleList x, by simp [sampleCall, Node.children], rfl, sampleArgument x,
    List.mem_singleton_self _, rfl, rfl⟩

/-- The list by itself knows no call. -/
theorem declaringCall_sampleList {forms : List Form} {w : Workshop} {x : Name}
    (built : Workshop.ofForms forms = .ok w) (held : w.Holds (sampleList x)) :
    (Tree.ofRoot (sampleList x)).declaringCall (sampleDeclaration x) = .error ⟨none, 5⟩ := by
  have argument : (sampleArgument x).Within (sampleList x) := ⟨[0], rfl⟩
  have breaks : (sampleList x).Breaks Node.callShape (sampleDeclaration x) none :=
    .above ⟨argument, List.mem_singleton_self _⟩ rfl
      (.above ⟨.refl _, List.mem_singleton_self _⟩ rfl
        (.ends fun p h => Node.not_parentIn_self _ p h))
  exact (Tree.declaringCall_eq_error_iff built held (held.within ⟨[0, 0], rfl⟩)).mpr
    ⟨breaks, rfl⟩

/-- What the declaration asks for depends on where it stands. -/
theorem request_sampleDeclaration (s : Search σ S) (x : Name) :
    s.request (sampleDeclaration x) = (s.tree.declaringCall (sampleDeclaration x)).map fun call =>
      some (.out s.scope s.enclosing sampleType ⟨4, ⟨9, 10⟩, x⟩ call) :=
  rfl

/-- The list has one site, the declaration. -/
theorem find_sampleList (s : Search σ S) {x : Name} (hg : (sampleList x).Grammatical) :
    s.find (some (sampleList x)) = s.report (sampleDeclaration x) := by
  rw [find, visit_eq_reached s hg]
  show (do s.report sampleType; s.report (sampleDeclaration x); s.report (sampleArgument x)
           s.report (sampleList x)) = _
  have hother {n : Node} (h : n.site? = none) : s.report n = pure () := by rw [report, h]
  rw [hother (n := sampleType) rfl, hother (n := sampleArgument x) rfl,
    hother (n := sampleList x) rfl]
  simp

/-! ### The end of a search -/

/-- Only a declaration expression fails, by the check of its place. -/
theorem request_eq_error_iff (s : Search σ S) {n : Node} (h : n.Shaped) (hs : n.isSite = true)
    {e : ContextError} : s.request n = .error e ↔
      n.kind = .declarationExpression ∧ s.tree.declaringCall n = .error e := by
  rcases s.request_site h hs with ⟨hk, type, -, hreq⟩ | ⟨hk, type?, hreq, -⟩
  · rw [hreq]
    cases s.tree.declaringCall n with
    | error err => simp [hk, Except.map]
    | ok call => simp [Except.map]
  · rw [hreq]
    simp [hk]

/-- A search of the sites stops at `d`, which stands in no call of the tree, while those before it
do.  The error tells the start of `d` and the kind of the node above it that breaks the shape of a
call, if there is one; what was found is due to the sites with a name before `d`. -/
inductive StopsAt (s : Search σ S) (root : Node) (sites : List Node) (p : Progress σ S)
    (e : ContextError) : Progress σ S → Prop where
  | intro {before rest : List Node} {d : Node} {calls : List Call}
      (split : sites = before ++ d :: rest)
      (accepted : ∀ m ∈ before, m.kind = .declarationExpression →
        ∃ call, root.Climbs Node.callShape m call)
      (kind : d.kind = .declarationExpression) (breaks : root.Breaks Node.callShape d e.context)
      (pos : e.pos = d.range.pos) (found : List.Forall₂ s.Requests (named before) calls) :
      StopsAt s root sites p e (p.after s.factory calls)

section

variable {forms : List Form} {w : Workshop} {root : Node}
  (built : Workshop.ofForms forms = .ok w) (hr : w.Holds root)
include built hr

/-- A site goes through unless it is a declaration expression that stands in no call. -/
theorem exists_request_iff (s : Search σ S) (ht : s.tree = Tree.ofRoot root) {n : Node}
    (hn : w.Holds n) (hs : n.isSite = true) : (∃ call?, s.request n = .ok call?) ↔
      (n.kind = .declarationExpression → ∃ call, root.Climbs Node.callShape n call) := by
  have hsh := (hn.grammatical built).shaped
  constructor
  · rintro ⟨call?, h⟩ hk
    -- If the way up broke off, the request would be the error that says where.
    rcases root.climbs_or_breaks Node.callShape n with hc | ⟨context, hb⟩
    · exact hc
    · have he := (Tree.declaringCall_eq_error_iff (e := ⟨context, n.range.pos⟩) built hr hn).mpr
        ⟨hb, rfl⟩
      rw [← ht] at he
      rw [(s.request_eq_error_iff hsh hs).mpr ⟨hk, he⟩] at h
      cases h
  · intro h
    cases hreq : s.request n with
    | ok call? => exact ⟨call?, rfl⟩
    | error e =>
        obtain ⟨hk, he⟩ := (s.request_eq_error_iff hsh hs).mp hreq
        obtain ⟨call, hc⟩ := h hk
        rw [ht, (Tree.declaringCall_eq_ok_iff_climbs built hr hn).mpr hc] at he
        cases he

/-- **How a search ends.**  It succeeds when every declaration expression that it comes to stands
in a call of the tree, and stops at the first one that does not. -/
theorem find_outcome (s : Search σ S) (ht : s.tree = Tree.ofRoot root) {n : Node}
    (hn : w.Holds n) (p : Progress σ S) : ∃ sites, n.SitesInOrder sites ∧
      ((∃ p', (s.find (some n)).run p = .ok () p') ↔
        ∀ d ∈ sites.map Prod.snd, d.kind = .declarationExpression →
          ∃ call, root.Climbs Node.callShape d call) ∧
      ∀ e p', (s.find (some n)).run p = .error e p' →
        s.StopsAt root (sites.map Prod.snd) p e p' := by
  have hg := hn.grammatical built
  obtain ⟨sites, hsites, hv⟩ := s.exists_sites hg
  have hsite {m : Node} (hm : m ∈ sites.map Prod.snd) := hsites.site hg hm
  have hreq {m : Node} (hm : m ∈ sites.map Prod.snd) :=
    s.exists_request_iff built hr ht (hn.within (hsite hm).1) (hsite hm).2.2
  have hfind : s.find (some n) = forM (sites.map Prod.snd) s.report := hv
  refine ⟨sites, hsites, ?_⟩
  rw [hfind]
  -- Either every site goes through, or the sites are split at the first one `d` that does not.
  rcases s.requests_or_error (sites.map Prod.snd) with h | ⟨before, d, rest, e, hd, h, he⟩
  · have hrun := s.run_forM_report p h
    refine ⟨⟨fun _ d hd => (hreq hd).mp (h d hd), fun _ => ⟨_, hrun⟩⟩, fun e p' he => ?_⟩
    rw [hrun] at he
    cases he
  · have hrun := s.run_forM_report_of_error rest p h he
    have hmem : d ∈ sites.map Prod.snd := by rw [hd]; simp
    have hb {m : Node} (hm : m ∈ before) : m ∈ sites.map Prod.snd := by
      rw [hd]
      exact List.mem_append_left _ hm
    obtain ⟨hk, hc⟩ := (s.request_eq_error_iff (hsite hmem).2.1 (hsite hmem).2.2).mp he
    rw [ht] at hc
    obtain ⟨hbreaks, hpos⟩ :=
      (Tree.declaringCall_eq_error_iff built hr (hn.within (hsite hmem).1)).mp hc
    rw [← hd] at hrun
    rw [hrun]
    refine ⟨⟨?_, fun hall => ?_⟩, ?_⟩
    · rintro ⟨p', ⟨⟩⟩
    · obtain ⟨call?, ho⟩ := (hreq hmem).mpr (hall d hmem)
      rw [ho] at he
      cases he
    · rintro _ _ ⟨⟩
      exact .intro hd (fun m hm => (hreq (hb hm)).mp (h m hm)) hk hbreaks hpos
        (s.forall₂_calls (fun m hm => (hsite (hb hm)).2) h)

end

/-- In the list of `this(out int x)` as a tree of its own the search comes to one site, and ends
there: the call lies outside of the tree, so the way up ends without a context. -/
theorem find_outcome_sampleList : ∃ (w : Workshop) (x : Name),
    Workshop.ofForms [sampleForm] = .ok w ∧ w.Holds (sampleList x) ∧
      let s : Search Unit Call := ⟨.ofRoot (sampleList x), Call.recorder, 0, none⟩
      (s.find (some (sampleList x))).run ⟨#[], ()⟩ = .error ⟨none, 5⟩ ⟨#[], ()⟩ ∧
      ∃ sites, (sampleList x).SitesInOrder sites ∧
        (¬ ∀ d ∈ sites.map Prod.snd, d.kind = .declarationExpression →
          ∃ call, (sampleList x).Climbs Node.callShape d call) ∧
        s.StopsAt (sampleList x) (sites.map Prod.snd) ⟨#[], ()⟩ ⟨none, 5⟩ ⟨#[], ()⟩ := by
  obtain ⟨w, x, built, hv⟩ := exists_sampleCall
  have held : w.Holds (sampleList x) := ⟨_, hv, [1], rfl⟩
  let s : Search Unit Call := ⟨.ofRoot (sampleList x), Call.recorder, 0, none⟩
  have run : (s.find (some (sampleList x))).run ⟨#[], ()⟩ = .error ⟨none, 5⟩ ⟨#[], ()⟩ := by
    rw [s.find_sampleList (held.grammatical built), run_report,
      s.request_sampleDeclaration, declaringCall_sampleList built held]
    rfl
  obtain ⟨sites, hsites, hok, hstops⟩ := s.find_outcome built held rfl held ⟨#[], ()⟩
  refine ⟨w, x, built, held, run, sites, hsites, fun hall => ?_, hstops _ _ run⟩
  obtain ⟨p', hp⟩ := hok.mpr hall
  rw [run] at hp
  cases hp

/-! ### Declaration expressions -/

theorem visit_type (s : Search σ S) {n : Node} (h : n.Grammatical) (ht : n.kind.isType = true) :
    s.visit n = pure () := by
  obtain ⟨sites, hsites, hv⟩ := s.exists_sites h
  cases sites with
  | nil => exact hv
  | cons site sites =>
      obtain ⟨hm, -, hs⟩ := hsites.site h (List.mem_map_of_mem List.mem_cons_self)
      rw [Node.isSite_of_isType (h.isType ht hm)] at hs
      cases hs

/-- The search of a declaration expression is its report: its type declares nothing. -/
theorem visit_declarationExpression (s : Search σ S) {d : Node} (h : d.Grammatical)
    (hk : d.kind = .declarationExpression) : s.visit d = s.report d := by
  obtain ⟨type, hc, ht, -⟩ := h.shaped.declaredType (.inl hk)
  have hg : type.Grammatical := h.child (by simp [hc])
  have hs : d.searched = [type] := by simp [Node.searched, hk, hc]
  rw [visit_eq, hs, visitAll_cons, visitAll_nil, s.visit_type hg ht]
  simp

/-- Whatever was found before, a search from `d` fails and finds nothing. -/
def Rejects (s : Search σ S) (d : Node) : Prop :=
  ∀ p : Progress σ S, ∃ e, (s.visit d).run p = .error e p

section

variable {forms : List Form} {w : Workshop} {root : Node}
  (built : Workshop.ofForms forms = .ok w) (hr : w.Holds root)
include built hr

/-- A declaration in a call is reported with that call. -/
theorem run_visit_of_hasArgument (s : Search σ S) (ht : s.tree = Tree.ofRoot root)
    {d c type : Node} (hd : w.Holds d) (hk : d.kind = .declarationExpression)
    (hty : d.type? = some type) (hw : c.Within root) (hc : c.HasArgument d) (p : Progress σ S) :
    (s.visit d).run p = .ok () (p.after s.factory
      (d.identifier?.map (.out s.scope s.enclosing type · c)).toList) := by
  have hg := hd.grammatical built
  have hcall : s.tree.declaringCall d = .ok c := by
    rw [ht, Tree.declaringCall_eq_ok_iff_climbs built hr hd, Tree.climbs_callShape_iff built hr]
    exact ⟨hw, hc⟩
  have hs : d.isSite = true := hg.shaped.isSite_of_declarationExpression hk
  rw [s.visit_declarationExpression hg hk, s.run_report]
  rcases s.request_site hg.shaped hs with ⟨-, type', hty', hreq⟩ | ⟨hne, -⟩
  · rw [hty] at hty'
    cases hty'
    rw [hreq, hcall]
    rfl
  · exact absurd hk hne

/-- A declaration in no call of the tree is rejected. -/
theorem rejects_of_forall_not (s : Search σ S) (ht : s.tree = Tree.ofRoot root) {d : Node}
    (hd : w.Holds d) (hk : d.kind = .declarationExpression)
    (h : ∀ c : Node, c.Within root → ¬ c.HasArgument d) : s.Rejects d := by
  intro p
  have hg := hd.grammatical built
  have hs : d.isSite = true := hg.shaped.isSite_of_declarationExpression hk
  rw [s.visit_declarationExpression hg hk, s.run_report]
  cases hreq : s.request d with
  | error e => exact ⟨e, rfl⟩
  | ok call? =>
      obtain ⟨c, hc⟩ := (s.exists_request_iff built hr ht hd hs).mp ⟨call?, hreq⟩ hk
      obtain ⟨hw, hc⟩ := (Tree.climbs_callShape_iff built hr).mp hc
      exact absurd hc (h c hw)

/-- **Where a declaration is accepted.**  The check of a declaration expression comes to `c` exactly
when `c` is a call of the tree that has it as an argument; the factory is told this call, and there
is no other.  So a declaration is rejected below a node that is not an argument, in an element
access, and in a call outside of the tree. -/
theorem declaration_accepted_iff (s : Search σ S) (ht : s.tree = Tree.ofRoot root) {d : Node}
    (hd : w.Holds d) (hk : d.kind = .declarationExpression) :
    (∀ c, s.tree.declaringCall d = .ok c ↔ c.Within root ∧ c.HasArgument d) ∧
    (∀ p : Progress σ S, (∃ p', (s.visit d).run p = .ok () p') ↔
      ∃ c : Node, c.Within root ∧ c.HasArgument d) ∧
    (∀ c : Node, c.Within root → c.HasArgument d →
      (∀ type name, d.type? = some type → d.identifier? = some name →
        (∀ p : Progress σ S, (s.visit d).run p =
          .ok () (p.after s.factory [.out s.scope s.enclosing type name c])) ∧
        ∀ names next, ((Call.out s.scope s.enclosing type name c).replay
          (LocalSymbol.factory names) next).1.declaringCall = some c.id) ∧
      ∀ c', w.Holds c' → c'.HasArgument d → c' = c) ∧
    (∀ m, w.Holds m → d ∈ m.children → m.kind ≠ .argument → s.Rejects d) ∧
    (∀ access list argument, w.Holds access → access.kind = .elementAccessExpression →
      list ∈ access.children → argument ∈ list.children → d ∈ argument.children →
      s.Rejects d) ∧
    (∀ c, w.Holds c → c.HasArgument d → ¬ c.Within root → s.Rejects d) := by
  have hg := hd.grammatical built
  obtain ⟨type, -, -, hty⟩ := hg.shaped.declaredType (.inl hk)
  have rejects := s.rejects_of_forall_not built hr ht hd hk
  refine ⟨fun c => ?_, fun p => ⟨?_, ?_⟩, fun c hw hc => ⟨?_, ?_⟩, ?_, ?_, ?_⟩
  · rw [ht, Tree.declaringCall_eq_ok_iff_climbs built hr hd, Tree.climbs_callShape_iff built hr]
  · rintro ⟨p', hrun⟩
    by_contra hno
    obtain ⟨e, he⟩ := rejects (fun c hw hc => hno ⟨c, hw, hc⟩) p
    rw [he] at hrun
    cases hrun
  · rintro ⟨c, hw, hc⟩
    exact ⟨_, s.run_visit_of_hasArgument built hr ht hd hk hty hw hc p⟩
  · intro type name hty hname
    refine ⟨fun p => ?_, fun names next => rfl⟩
    have hrun := s.run_visit_of_hasArgument built hr ht hd hk hty hw hc p
    rwa [hname] at hrun
  · exact fun c' hc' h' => hc.unique built h' (hr.within hw) hc'
  · intro m hm hdm hkm
    exact rejects fun c hw hc => hkm (hc.above built (hr.within hw) hm hdm).1
  · intro access list argument haccess hka hl hal hda
    have hlist := haccess.child hl
    have hargument := hlist.child hal
    refine rejects ?_
    intro c hw hc
    -- The call would be the access, as every node has one parent; but an access is no call.
    have habove := hc.above built (hr.within hw) hargument hda
    obtain rfl := (habove.2 list hlist hal).2 access haccess hl
    have hcall := hc.call
    rw [hka] at hcall
    cases hcall
  · intro c hc harg hout
    refine rejects fun c' hw hc' => hout ?_
    rw [hc'.unique built harg (hr.within hw) hc]
    exact hw

end

/-- The declaration in `this(out int x)` is accepted. -/
theorem declaration_accepted_sampleDeclaration : ∃ (w : Workshop) (x : Name),
    Workshop.ofForms [sampleForm] = .ok w ∧ w.Holds (sampleCall x) ∧
      w.Holds (sampleDeclaration x) ∧
      let s : Search Unit Call := ⟨.ofRoot (sampleCall x), Call.recorder, 0, none⟩
      s.tree.declaringCall (sampleDeclaration x) = .ok (sampleCall x) ∧
        ∃ p', (s.visit (sampleDeclaration x)).run ⟨#[], ()⟩ = .ok () p' := by
  obtain ⟨w, x, built, hv⟩ := exists_sampleCall
  have root : w.Holds (sampleCall x) := ⟨_, hv, .refl _⟩
  have held : w.Holds (sampleDeclaration x) := ⟨_, hv, [1, 0, 0], rfl⟩
  have hc := hasArgument_sampleCall x
  let s : Search Unit Call := ⟨.ofRoot (sampleCall x), Call.recorder, 0, none⟩
  have accepted := s.declaration_accepted_iff built root rfl held rfl
  exact ⟨w, x, built, root, held, (accepted.1 _).mpr ⟨.refl _, hc⟩,
    (accepted.2.1 _).mpr ⟨_, .refl _, hc⟩⟩

end Search

end InlineLocals
