import InlineLocals.Proofs.Declaration.Outcome

/-!
# Declaration — Arms

The search kind by kind.  `Search.visit` treats all nodes alike: it searches what `Node.searched`
lists and reports the node afterwards.  Here a search has an arm for each kind of node that is
special, and an arm goes straight to the nodes that matter: to the initial values of a declaration
and not to its type, to the patterns and conditions of the labels of a section, to the first source
of a query and to the sources of its joins, body after body (`Node.route`).  It reports the
variable of a type pattern before it goes on, and that of a recursive pattern after
(`Search.arm`).

On grammatical nodes the two are the same (`Search.visit_eq_arm`), and the arms leave no choice:
whatever goes by them is the search (`Search.eq_visit_of_arms`).
-/

namespace InlineLocals

namespace Node

/-! ### Where a search goes -/

/-- The body that continues the body of a query. -/
def continuation? (n : Node) : Option Node :=
  (n.children.find? (·.kind == .queryContinuation)).bind (·.children.head?)

theorem exists_of_continuation? {n body : Node} (h : n.continuation? = some body) :
    ∃ c ∈ n.children, body ∈ c.children := by
  obtain ⟨c, hc, hb⟩ := Option.bind_eq_some_iff.mp h
  exact ⟨c, List.mem_of_find?_eq_some hc, List.mem_of_mem_head? hb⟩

theorem size_lt_of_continuation? {n body : Node} (h : n.continuation? = some body) :
    body.size < n.size := by
  obtain ⟨c, hc, hb⟩ := exists_of_continuation? h
  exact Nat.lt_trans (size_lt_of_mem_children hb) (size_lt_of_mem_children hc)

/-- The sources of the joins in the body of a query, and after them those in the bodies that
continue it. -/
def joinSources (n : Node) : List Node :=
  n.children.filterMap (fun c => if c.kind = .joinClause then c.joinSource? else none) ++
    match h : n.continuation? with
    | some body =>
      have := size_lt_of_continuation? h
      body.joinSources
    | none => []
termination_by n.size

/-- The nodes to which a search goes from `n`, in order. -/
def route (n : Node) : List Node :=
  match n.kind with
  | .localDeclarationStatement =>
    -- The type stands before the declarators.
    n.children.flatMap fun declaration => (declaration.children.drop 1).flatMap children
  | .ifStatement | .whileStatement | .switchStatement | .lockStatement | .switchExpression =>
    n.children.take 1
  | .doStatement => n.children.drop 1
  | .switchSection =>
    (n.children.filter (·.kind == .casePatternSwitchLabel)).flatMap fun label =>
      label.children.take 1 ++ (label.children.drop 1).flatMap children
  | .binaryExpression => n.chainOperands []
  | .declarationExpression | .varPattern | .parenthesizedLambdaExpression
  | .simpleLambdaExpression | .anonymousMethodExpression => []
  | .queryExpression =>
    (n.children.take 1).flatMap (fun source => source.children.getLast?.toList) ++
      (n.children.drop 1).flatMap joinSources
  | .queryBody => n.joinSources
  | .queryContinuation => n.children.flatMap joinSources
  | _ => n.children

/-! ### Routes lead down -/

theorem within_or_mem_of_mem_chainOperands {m n : Node} {pending : List Node}
    (h : m ∈ n.chainOperands pending) : m.Within n ∨ m ∈ pending := by
  fun_induction chainOperands pending n with
  | case1 pending label left right _ ih =>
      have hl : left.Within (mk label [left, right]) := within_of_mem_children List.mem_cons_self
      have hr : right.Within (mk label [left, right]) :=
        within_of_mem_children (List.mem_cons_of_mem _ (List.mem_singleton_self right))
      rcases ih h with hm | hm
      · exact .inl (hm.trans hl)
      · rcases List.mem_cons.mp hm with rfl | hm
        · exact .inl hr
        · exact .inr hm
  | case2 | case3 =>
      rcases List.mem_cons.mp h with rfl | hm
      · exact .inl (.refl _)
      · exact .inr hm

theorem exists_child_of_mem_joinSources {n m : Node} (h : m ∈ n.joinSources) :
    ∃ c ∈ n.children, m.Within c := by
  rw [joinSources] at h
  rcases List.mem_append.mp h with h | h
  · obtain ⟨c, hc, hm⟩ := List.mem_filterMap.mp h
    split at hm
    · exact ⟨c, hc, within_of_mem_children (joinSource?_mem hm)⟩
    · cases hm
  · split at h
    · next body hb =>
      have hlt := size_lt_of_continuation? hb
      obtain ⟨c, hc, hbody⟩ := exists_of_continuation? hb
      obtain ⟨k, hk, hm⟩ := exists_child_of_mem_joinSources h
      have hdown := (within_of_mem_children hk).trans (within_of_mem_children hbody)
      exact ⟨c, hc, hm.trans hdown⟩
    · cases h
termination_by n.size

/-- Whatever is on the route from a node lies within its children. -/
theorem Shaped.exists_child_of_mem_route {n m : Node} (h : n.Shaped) (hm : m ∈ n.route) :
    ∃ c ∈ n.children, m.Within c := by
  have whole (hm : m ∈ n.children) : ∃ c ∈ n.children, m.Within c := ⟨m, hm, .refl m⟩
  unfold route at hm
  split at hm
  · obtain ⟨declaration, hd, hm⟩ := List.mem_flatMap.mp hm
    obtain ⟨declarator, hdd, hm⟩ := List.mem_flatMap.mp hm
    have hdown := within_of_mem_children (List.mem_of_mem_drop hdd)
    exact ⟨declaration, hd, (within_of_mem_children hm).trans hdown⟩
  iterate 5
    · exact whole (List.mem_of_mem_take hm)
  · exact whole (List.mem_of_mem_drop hm)
  -- Of a switch section only the labels are searched, as well as the clauses in them.
  · obtain ⟨label, hl, hm⟩ := List.mem_flatMap.mp hm
    refine ⟨label, List.mem_of_mem_filter hl, ?_⟩
    rcases List.mem_append.mp hm with hm | hm
    · exact within_of_mem_children (List.mem_of_mem_take hm)
    · obtain ⟨clause, hc, hm⟩ := List.mem_flatMap.mp hm
      have hdown := within_of_mem_children (List.mem_of_mem_drop hc)
      exact (within_of_mem_children hm).trans hdown
  · next hk =>
    obtain ⟨left, right, hc, -⟩ := h.binaryExpression hk
    obtain ⟨label, children⟩ := n
    have hkl : label.kind = .binaryExpression := hk
    subst hc
    rw [chainOperands, if_pos hkl] at hm
    rcases within_or_mem_of_mem_chainOperands hm with hm | hm
    · exact ⟨left, List.mem_cons_self, hm⟩
    · obtain rfl := List.mem_singleton.mp hm
      exact ⟨m, List.mem_cons_of_mem _ (List.mem_singleton_self m), .refl m⟩
  iterate 5
    · cases hm
  · rcases List.mem_append.mp hm with hm | hm
    · obtain ⟨source, hs, hm⟩ := List.mem_flatMap.mp hm
      exact ⟨source, List.mem_of_mem_take hs,
        within_of_mem_children (List.mem_of_getLast? (Option.mem_toList.mp hm))⟩
    · obtain ⟨body, hb, hm⟩ := List.mem_flatMap.mp hm
      obtain ⟨c, hc, hm⟩ := exists_child_of_mem_joinSources hm
      exact ⟨body, List.mem_of_mem_drop hb, hm.trans (within_of_mem_children hc)⟩
  · exact exists_child_of_mem_joinSources hm
  · obtain ⟨body, hb, hm⟩ := List.mem_flatMap.mp hm
    obtain ⟨c, hc, hm⟩ := exists_child_of_mem_joinSources hm
    exact ⟨body, hb, hm.trans (within_of_mem_children hc)⟩
  · exact whole hm

end Node

namespace Search

variable {σ S : Type}

/-- What a search does at `n`, when it searches other nodes by `go`. -/
def arm (s : Search σ S) (go : Node → Run σ S Unit) (n : Node) : Run σ S Unit :=
  match n.kind with
  | .declarationPattern => do
    s.report n
    n.route.forM go
  | .recursivePattern => do
    n.route.forM go
    s.report n
  | .declarationExpression | .varPattern => s.report n
  | _ => n.route.forM go

/-! ### Searching a list -/

theorem visitAll_eq_forM (s : Search σ S) (ns : List Node) : s.visitAll ns = ns.forM s.visit := by
  induction ns with
  | nil => exact visitAll_nil s
  | cons n ns ih =>
      rw [visitAll_cons, ih]
      rfl

/-- To search nodes, each of which is searched by others, is to search these. -/
theorem visitAll_eq_visitAll_flatMap (s : Search σ S) {f : Node → List Node} {ns : List Node}
    (h : ∀ n ∈ ns, s.visit n = s.visitAll (f n)) : s.visitAll ns = s.visitAll (ns.flatMap f) := by
  induction ns with
  | nil => rfl
  | cons n ns ih =>
      rw [List.forall_mem_cons] at h
      rw [visitAll_cons, List.flatMap_cons, visitAll_append, h.1, ih h.2]

theorem visitAll_singleton (s : Search σ S) (n : Node) : s.visitAll [n] = s.visit n := by
  simp [visitAll_cons, visitAll_nil]

theorem report_of_declares_eq_false (s : Search σ S) {n : Node} (h : n.kind.declares = false) :
    s.report n = pure () := by
  rw [report, Node.site?_of_not_isSite (by rw [Node.isSite, h, Bool.false_and])]

/-- A node that declares nothing is searched by what is searched below it. -/
theorem visit_eq_visitAll_searched (s : Search σ S) {n : Node} (h : n.kind.declares = false) :
    s.visit n = s.visitAll n.searched := by
  rw [visit_eq, s.report_of_declares_eq_false h, bind_pure_unit]

/-- Types in front of other nodes make no difference. -/
theorem visitAll_types_append (s : Search σ S) {types ns : List Node}
    (h : ∀ type ∈ types, type.Grammatical ∧ type.kind.isType = true) :
    s.visitAll (types ++ ns) = s.visitAll ns := by
  induction types with
  | nil => rfl
  | cons type types ih =>
      rw [List.forall_mem_cons] at h
      rw [List.cons_append, visitAll_cons, s.visit_type h.1.1 h.1.2, ih h.2, pure_bind]

/-! ### The arms, one by one -/

/-- The search of a declarator is that of its initial value. -/
theorem visit_declarator (s : Search σ S) {d : Node} (hk : d.kind = .variableDeclarator) :
    s.visit d = s.visitAll d.children := by
  rw [s.visit_eq_visitAll_searched (by rw [hk]; rfl)]
  simp [Node.searched, hk]

/-- What a declaration statement consists of. -/
theorem exists_declarators {statement : Node} (h : statement.Grammatical)
    (hk : statement.kind = .localDeclarationStatement) : ∃ declaration type declarators,
      statement.children = [declaration] ∧ declaration.kind = .variableDeclaration ∧
      declaration.children = type :: declarators ∧ type.kind.isType = true ∧
      ∀ d ∈ declarators, d.kind = .variableDeclarator := by
  obtain ⟨declaration, hc, hkd⟩ := h.shaped.localDeclarationStatement hk
  have hg : declaration.Grammatical := h.child (hc ▸ List.mem_singleton_self _)
  obtain ⟨type, declarators, hcd, ht, hd⟩ := hg.shaped.variableDeclaration hkd
  exact ⟨declaration, type, declarators, hc, hkd, hcd, ht, hd⟩

/-- The search of a declaration statement is that of its declarators: its type declares nothing. -/
theorem visit_localDeclaration (s : Search σ S) {statement declaration type : Node}
    {declarators : List Node} (h : statement.Grammatical)
    (hk : statement.kind = .localDeclarationStatement) (hc : statement.children = [declaration])
    (hkd : declaration.kind = .variableDeclaration)
    (hcd : declaration.children = type :: declarators) (ht : type.kind.isType = true) :
    s.visit statement = s.visitAll declarators := by
  have hdeclaration : declaration.Grammatical := h.child (hc ▸ List.mem_singleton_self _)
  have htype : type.Grammatical := hdeclaration.child (hcd ▸ List.mem_cons_self)
  have hs : statement.searched = [declaration] := by simp [Node.searched, hk, hc]
  have hsd : declaration.searched = [type] ++ declarators := by simp [Node.searched, hkd, hcd]
  rw [s.visit_eq_visitAll_searched (by rw [hk]; rfl), hs, visitAll_singleton,
    s.visit_eq_visitAll_searched (by rw [hkd]; rfl), hsd, s.visitAll_types_append]
  exact List.forall_mem_singleton.mpr ⟨htype, ht⟩

/-- The search of a label with a pattern is that of the pattern and of the condition. -/
theorem visit_casePatternSwitchLabel (s : Search σ S) {label : Node} (h : label.Grammatical)
    (hk : label.kind = .casePatternSwitchLabel) : s.visit label =
      s.visitAll (label.children.take 1 ++ (label.children.drop 1).flatMap Node.children) := by
  have hs : label.searched = label.children := by simp [Node.searched, hk]
  rw [s.visit_eq_visitAll_searched (by rw [hk]; rfl), hs]
  obtain ⟨pattern, clauses, hc, hcl⟩ := h.shaped.casePatternSwitchLabel hk
  rw [hc, List.take_succ_cons, List.take_zero, List.drop_succ_cons, List.drop_zero,
    ← List.singleton_append, visitAll_append, visitAll_append]
  refine congrArg (s.visitAll [pattern] >>= fun _ => ·) (s.visitAll_eq_visitAll_flatMap ?_)
  rintro clause hmem
  rcases hcl with rfl | ⟨_, rfl, hw⟩
  · cases hmem
  · obtain rfl := List.mem_singleton.mp hmem
    rw [s.visit_eq_visitAll_searched (by rw [hw]; rfl)]
    simp [Node.searched, hw]

/-- The search of a source is that of the expression it draws on: its type declares nothing. -/
theorem visit_fromClause (s : Search σ S) {source : Node} (h : source.Grammatical)
    (hk : source.kind = .fromClause) :
    s.visit source = s.visitAll source.children.getLast?.toList := by
  have hs : source.searched = source.children := by simp [Node.searched, hk]
  obtain ⟨types, e, hc, ht⟩ := h.shaped.fromClause hk
  rw [s.visit_eq_visitAll_searched (by rw [hk]; rfl), hs, hc, s.visitAll_types_append,
    List.getLast?_concat, Option.toList_some]
  exact fun type hm => ⟨h.child (hc ▸ List.mem_append_left _ hm), ht type hm⟩

theorem visit_queryContinuation (s : Search σ S) {n : Node} (hk : n.kind = .queryContinuation) :
    s.visit n = s.visitAll n.children := by
  rw [s.visit_eq_visitAll_searched (by rw [hk]; rfl)]
  simp [Node.searched, hk]

/-- The search of the body of a query is the loop over its joins and those of the bodies that
continue it. -/
theorem visit_queryBody (s : Search σ S) {body : Node} (h : body.Grammatical)
    (hk : body.kind = .queryBody) : s.visit body = s.visitAll body.joinSources := by
  obtain ⟨clauses, rest, hc, hcl, hrest⟩ := h.shaped.queryBody hk
  let join? (c : Node) : Option Node := if c.kind = .joinClause then c.joinSource? else none
  -- Among the clauses only joins count, and a continuation can only come last.
  have hsearched : body.searched = body.children.filterMap join? ++ rest := by
    simp only [Node.searched, hk, hc, List.filterMap_append, List.append_assoc]
    refine congrArg₂ (· ++ ·) (List.filterMap_congr fun c hm => ?_) ?_
    · have hne := hcl c hm
      simp only [join?]
      split <;> simp_all
    · rcases hrest with rfl | ⟨continuation, rfl, hkc⟩
      · rfl
      · simp [hkc, join?]
  rw [s.visit_eq_visitAll_searched (by rw [hk]; rfl), hsearched, visitAll_append, Node.joinSources,
    visitAll_append]
  refine congrArg (s.visitAll _ >>= fun _ => ·) ?_
  have hnone : clauses.find? (·.kind == .queryContinuation) = none := by simpa using hcl
  rcases hrest with rfl | ⟨continuation, rfl, hkc⟩
  · have hbody : body.continuation? = none := by
      rw [Node.continuation?, hc, List.append_nil, hnone, Option.bind_none]
    split
    · next h => cases hbody.symm.trans h
    · rfl
  · have hg : continuation.Grammatical := h.child (hc ▸ by simp)
    obtain ⟨next, hcc, hkn⟩ := hg.shaped.queryContinuation hkc
    have hnext : next.Grammatical := hg.child (hcc ▸ List.mem_singleton_self _)
    have hbody : body.continuation? = some next := by
      simp [Node.continuation?, hc, hnone, hkc, hcc]
    have hlt := Node.size_lt_of_continuation? hbody
    rw [visitAll_singleton, s.visit_queryContinuation hkc, hcc, visitAll_singleton,
      visit_queryBody s hnext hkn]
    split
    · next h => cases hbody.symm.trans h; rfl
    · next h => cases hbody.symm.trans h
termination_by body.size

/-- Whatever declares nothing is searched along its route. -/
theorem visit_eq_visitAll_route (s : Search σ S) {n : Node} (h : n.Grammatical)
    (hd : n.kind.declares = false) : s.visit n = s.visitAll n.route := by
  have hsearched := s.visit_eq_visitAll_searched hd
  unfold Node.route
  split
  · next hk =>
    obtain ⟨declaration, type, declarators, hc, hkd, hcd, ht, hdeclarators⟩ :=
      exists_declarators h hk
    rw [s.visit_localDeclaration h hk hc hkd hcd ht, hc, List.flatMap_singleton, hcd]
    exact s.visitAll_eq_visitAll_flatMap fun d hm => s.visit_declarator (hdeclarators d hm)
  · next hk => rw [hsearched, Node.searched, hk]
  · next hk => rw [hsearched, Node.searched, hk]
  · next hk => rw [hsearched, Node.searched, hk]
  · next hk => rw [hsearched, Node.searched, hk]
  · next hk => rw [hsearched, Node.searched, hk]
  · next hk => rw [hsearched, Node.searched, hk]
  · next hk =>
    rw [hsearched, Node.searched, hk]
    refine s.visitAll_eq_visitAll_flatMap fun label hm => ?_
    obtain ⟨hm, hkl⟩ := List.mem_filter.mp hm
    exact s.visit_casePatternSwitchLabel (h.child hm) (beq_iff_eq.mp hkl)
  · exact s.visit_eq_visitAll_chainOperands n
  · next hk => rw [hk] at hd; cases hd
  · next hk => rw [hk] at hd; cases hd
  · next hk => rw [hsearched, Node.searched, hk]
  · next hk => rw [hsearched, Node.searched, hk]
  · next hk => rw [hsearched, Node.searched, hk]
  · next hk =>
    obtain ⟨source, body, hc, hks, hkb⟩ := h.shaped.queryExpression hk
    have hs : n.searched = [source] ++ [body] := by simp [Node.searched, hk, hc]
    rw [hsearched, hs, visitAll_append, visitAll_append, hc]
    simp only [List.take_succ_cons, List.take_zero, List.drop_succ_cons, List.drop_zero,
      List.flatMap_singleton, visitAll_singleton]
    rw [s.visit_fromClause (h.child (by simp [hc])) hks,
      s.visit_queryBody (h.child (by simp [hc])) hkb]
  · next hk => exact s.visit_queryBody h hk
  · next hk =>
    obtain ⟨body, hc, hkb⟩ := h.shaped.queryContinuation hk
    rw [s.visit_queryContinuation hk, hc, visitAll_singleton, List.flatMap_singleton,
      s.visit_queryBody (h.child (by simp [hc])) hkb]
  · -- All other kinds are searched in all children.
    have hs : n.searched = n.children := by
      unfold Node.searched
      split <;> first | rfl | contradiction
    rw [hsearched, hs]

/-- **The search goes by the arms.** -/
theorem visit_eq_arm (s : Search σ S) {n : Node} (h : n.Grammatical) :
    s.visit n = s.arm s.visit n := by
  unfold arm
  simp only [← visitAll_eq_forM]
  split
  · next hk =>
    -- The one child is the type, so it makes no difference when the variable is reported.
    obtain ⟨type, hc, ht, -⟩ := h.shaped.declaredType (.inr hk)
    have hs : n.searched = [type] := by simp [Node.searched, hk, hc]
    have hr : n.route = [type] := by simp [Node.route, hk, hc]
    rw [visit_eq, hs, hr, visitAll_singleton, s.visit_type (h.child (by simp [hc])) ht, pure_bind,
      bind_pure_unit]
  · next hk => simp [visit_eq, Node.searched, Node.route, hk]
  · next hk => exact s.visit_declarationExpression h hk
  · next hk =>
    have hs : n.searched = [] := by simp [Node.searched, hk, h.shaped.varPattern hk]
    rw [visit_eq, hs, visitAll_nil, pure_bind]
  · refine s.visit_eq_visitAll_route h ?_
    unfold Kind.declares
    split <;> first | rfl | contradiction

/-! ### Only the search goes by the arms -/

theorem forM_congr {go go' : Node → Run σ S Unit} {ns : List Node}
    (h : ∀ n ∈ ns, go n = go' n) : ns.forM go = ns.forM go' := by
  induction ns with
  | nil => rfl
  | cons n ns ih =>
      rw [List.forall_mem_cons] at h
      show (do go n; ns.forM go) = (do go' n; ns.forM go')
      rw [h.1, ih h.2]

/-- An arm depends on the searches of the nodes on its route alone. -/
theorem arm_congr (s : Search σ S) {go go' : Node → Run σ S Unit} {n : Node}
    (h : ∀ m ∈ n.route, go m = go' m) : s.arm go n = s.arm go' n := by
  unfold arm
  rw [forM_congr h]

/-- **The arms settle the search.**  Whatever goes by them, on all grammatical nodes, is the
search: a route leads to smaller nodes, and to grammatical ones. -/
theorem eq_visit_of_arms (s : Search σ S) {go : Node → Run σ S Unit}
    (hgo : ∀ n : Node, n.Grammatical → go n = s.arm go n) {n : Node} (h : n.Grammatical) :
    go n = s.visit n := by
  rw [hgo n h, s.visit_eq_arm h]
  refine s.arm_congr fun m hm => ?_
  obtain ⟨c, hc, hmc⟩ := h.shaped.exists_child_of_mem_route hm
  have hlt : m.size < n.size := Nat.lt_of_le_of_lt hmc.size_le (Node.size_lt_of_mem_children hc)
  exact eq_visit_of_arms s hgo ((h.child hc).within hmc)
termination_by n.size

end Search

end InlineLocals
