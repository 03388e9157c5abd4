import InlineLocals.Proofs.Declaration.Chain
import InlineLocals.Proofs.Syntax.Shape

/-!
# Declaration — Policy

Which nodes a search comes to, and in which order.  From the node it starts at, a search goes from
nodes to their children, but not by a step that is barred (`Node.bars`): it leaves the branches of
statements, the arms of a switch, anonymous functions and most of a query to searches of their
own.  The nodes it comes to are those at the end of a path that is admitted (`Node.Admits`), and it
comes to a node after all that lie below it (`Node.Before`).

* `Node.mem_reached`, `Node.pairwise_reached`: the list `Node.reached` has a node for every
  admitted path, and they stand in the order of a walk that ends with the node itself.
* `Search.visit_eq_reached`: a search from a grammatical node reports the nodes of that list, one
  after the other, and does nothing else.

The search itself is written by kinds: it lists what is to be searched (`Node.searched`) and skips
a join on the way to the join's source.  `Shaped.plainlySearched_eq` compares the two kind by kind,
which is where the shape of nodes is needed.
-/

namespace InlineLocals

namespace Node

/-! ### Admitted paths -/

/-- A search that comes to `n` does not go on to its child at place `i`; `first` says that the
search starts at `n`. -/
def bars (n : Node) (first : Bool) (i : Nat) (child : Node) : Bool :=
  match n.kind with
  | .ifStatement | .whileStatement | .lockStatement | .switchStatement => i != 0
  | .doStatement => i != 1
  | .switchSection =>
    child.kind.isStatement || child.kind == .caseSwitchLabel || child.kind == .defaultSwitchLabel
  | .switchExpression => child.kind == .switchExpressionArm
  | .parenthesizedLambdaExpression | .simpleLambdaExpression | .anonymousMethodExpression => true
  | .queryBody =>
    (child.kind.isQueryClause && child.kind != .joinClause) || child.kind == .selectClause ||
      child.kind == .groupClause
  | .joinClause => !first && i + 3 != n.children.length
  | _ => false

/-- The path from `n` takes no step that is barred. -/
def Admits (n : Node) (first : Bool) : List Nat → Prop
  | [] => True
  | i :: path => ∃ child, n.children[i]? = some child ∧ n.bars first i child = false ∧
      child.Admits false path

/-- One path comes before another when its end comes before the other's end in a walk that visits
a node after its children. -/
def Before : List Nat → List Nat → Prop
  | i :: p, j :: q => i < j ∨ i = j ∧ Before p q
  | _ :: _, [] => True
  | [], _ => False

/-- No two paths are each before the other. -/
theorem before_asymm : ∀ {p q : List Nat}, Before p q → ¬ Before q p
  | i :: p, j :: q, h, h' => by
      rcases h with h | ⟨rfl, h⟩
      · rcases h' with h' | ⟨rfl, -⟩
        · exact Nat.lt_asymm h h'
        · exact Nat.lt_irrefl _ h
      · rcases h' with h' | ⟨-, h'⟩
        · exact Nat.lt_irrefl _ h'
        · exact before_asymm h h'
  | _ :: _, [], _, h' => h'
  | [], _, h, _ => h

mutual

/-- The nodes that a search from a node comes to, with the paths to them and in the order of the
walk; `first` says that the search starts at the node. -/
def reached (first : Bool) : Node → List (List Nat × Node)
  | mk label children =>
    reachedFrom (mk label children) first 0 children ++ [([], mk label children)]

/-- The part of the list that comes from the children of `n` from place `i` on. -/
def reachedFrom (n : Node) (first : Bool) (i : Nat) : List Node → List (List Nat × Node)
  | [] => []
  | child :: rest =>
    (if n.bars first i child then []
      else (child.reached false).map fun (path, m) => (i :: path, m)) ++
      reachedFrom n first (i + 1) rest

end

/-- What is reached from a node: what is reached below it, and then the node itself. -/
theorem reached_eq (first : Bool) (n : Node) :
    n.reached first = n.reachedFrom first 0 n.children ++ [([], n)] := by
  cases n
  rw [reached, children]

/-- A node below is reached through a child to which the step is not barred. -/
theorem mem_reachedFrom {n : Node} {first : Bool} {path : List Nat} {m : Node} :
    ∀ {i : Nat} {ns : List Node}, (path, m) ∈ n.reachedFrom first i ns ↔
      ∃ j child p, path = (i + j) :: p ∧ ns[j]? = some child ∧
        n.bars first (i + j) child = false ∧ (p, m) ∈ child.reached false
  | i, [] => by simp [reachedFrom]
  | i, c :: rest => by
      rw [reachedFrom, List.mem_append, mem_reachedFrom]
      constructor
      · rintro (h | ⟨j, child, p, rfl, hc, hb, hm⟩)
        · split at h
          · cases h
          · next hb =>
            obtain ⟨⟨p, k⟩, hm, e⟩ := List.mem_map.mp h
            cases e
            exact ⟨0, c, p, rfl, rfl, by simpa using hb, hm⟩
        · have e : i + 1 + j = i + (j + 1) := by rw [Nat.add_assoc, Nat.add_comm 1]
          exact ⟨j + 1, child, p, by rw [e], hc, by rwa [e] at hb, hm⟩
      · rintro ⟨j, child, p, rfl, hc, hb, hm⟩
        -- The child is the one at hand, or it is one of the rest and counted from the next place.
        cases j with
        | zero =>
            cases hc
            refine .inl ?_
            rw [if_neg (by simpa using hb)]
            exact List.mem_map.mpr ⟨(p, m), hm, rfl⟩
        | succ j =>
            have e : i + 1 + j = i + (j + 1) := by rw [Nat.add_assoc, Nat.add_comm 1]
            exact .inr ⟨j, child, p, by rw [e], hc, by rwa [e], hm⟩

/-- The search comes to the ends of the admitted paths. -/
theorem mem_reached {m : Node} : ∀ {path : List Nat} {first : Bool} {n : Node},
    (path, m) ∈ n.reached first ↔ n.Admits first path ∧ n.at? path = some m
  | [], first, n => by
      rw [reached_eq, List.mem_append, mem_reachedFrom, at?_nil, Admits]
      constructor
      · rintro (⟨j, child, p, e, -⟩ | h)
        · cases e
        · cases List.mem_singleton.mp h
          exact ⟨trivial, rfl⟩
      · rintro ⟨-, h⟩
        cases h
        exact .inr (List.mem_singleton_self _)
  | i :: path, first, n => by
      rw [reached_eq, List.mem_append, mem_reachedFrom, at?_cons_eq_some_iff]
      constructor
      · rintro (⟨j, child, p, e, hc, hb, hm⟩ | h)
        · rw [Nat.zero_add] at e hb
          obtain ⟨rfl, rfl⟩ := List.cons_eq_cons.mp e
          obtain ⟨ha, hp⟩ := mem_reached.mp hm
          exact ⟨⟨child, hc, hb, ha⟩, child, hc, hp⟩
        · simp at h
      · rintro ⟨⟨child, hc, hb, ha⟩, other, ho, hp⟩
        rw [hc] at ho
        cases ho
        exact .inl ⟨i, child, path, by rw [Nat.zero_add], hc, by rwa [Nat.zero_add],
          mem_reached.mpr ⟨ha, hp⟩⟩

mutual

/-- The search comes to the nodes in the order of their paths. -/
theorem pairwise_reached (first : Bool) : ∀ n : Node,
    ((n.reached first).map Prod.fst).Pairwise Before
  | mk label children => by
      rw [reached, List.map_append, List.pairwise_append]
      refine ⟨pairwise_reachedFrom _ first 0 children, List.pairwise_singleton _ _, ?_⟩
      intro p hp q hq
      obtain ⟨⟨path, m⟩, hm, rfl⟩ := List.mem_map.mp hp
      obtain ⟨j, child, p, rfl, -⟩ := mem_reachedFrom.mp hm
      obtain rfl := List.mem_singleton.mp hq
      trivial

/-- What is reached through one child comes before what is reached through the next. -/
theorem pairwise_reachedFrom (n : Node) (first : Bool) : ∀ (i : Nat) (ns : List Node),
    ((n.reachedFrom first i ns).map Prod.fst).Pairwise Before
  | _, [] => .nil
  | i, child :: rest => by
      rw [reachedFrom, List.map_append, List.pairwise_append]
      refine ⟨?_, pairwise_reachedFrom n first (i + 1) rest, ?_⟩
      · split
        · exact .nil
        · have hb : ∀ p q, Before p q → Before (i :: p) (i :: q) := fun _ _ h => .inr ⟨rfl, h⟩
          have h := (pairwise_reached false child).map (i :: ·) hb
          rwa [List.map_map] at h ⊢
      · intro p hp q hq
        obtain ⟨⟨path, m⟩, hm, rfl⟩ := List.mem_map.mp hq
        obtain ⟨j, -, q, rfl, -⟩ := mem_reachedFrom.mp hm
        split at hp
        · cases hp
        · obtain ⟨⟨path, m⟩, hm, rfl⟩ := List.mem_map.mp hp
          obtain ⟨⟨path, m⟩, -, e⟩ := List.mem_map.mp hm
          cases e
          exact .inl (by omega)

end

/-! ### The nodes that the search enters -/

/-- Where a search starts matters at a join only. -/
theorem bars_eq {n : Node} (h : n.kind ≠ .joinClause) (first : Bool) (i : Nat) (child : Node) :
    n.bars first i child = n.bars true i child := by
  unfold bars
  split
  all_goals first | rfl | exact absurd ‹_› h

theorem reachedFrom_eq {n : Node} (h : n.kind ≠ .joinClause) (first : Bool) :
    ∀ (i : Nat) (ns : List Node), n.reachedFrom first i ns = n.reachedFrom true i ns
  | _, [] => by rw [reachedFrom, reachedFrom]
  | i, child :: rest => by
      rw [reachedFrom, reachedFrom, bars_eq h, reachedFrom_eq h first (i + 1) rest]

/-- Whether the search starts at a node matters for a join only. -/
theorem reached_eq_reached_true {n : Node} (h : n.kind ≠ .joinClause) (first : Bool) :
    n.reached first = n.reached true := by
  rw [reached_eq, reached_eq, reachedFrom_eq h]

/-- The node that the search enters on the way to the child at place `i`: the child, or the
expression that a join draws on. -/
def entered (n : Node) (i : Nat) (child : Node) : Option Node :=
  if n.bars true i child then none
  else if child.kind = .joinClause then child.joinSource?
  else some child

/-- The nodes that the search enters on the way to the children from place `i` on. -/
def enteredFrom (n : Node) (i : Nat) : List Node → List Node
  | [] => []
  | child :: rest => (n.entered i child).toList ++ enteredFrom n (i + 1) rest

/-- What the search enters is found child by child when the place of a child does not matter. -/
theorem enteredFrom_eq_filterMap {n : Node} {f : Node → Option Node} :
    ∀ {i : Nat} {ns : List Node},
      (∀ j child, child ∈ ns → n.entered (i + j) child = f child) →
        n.enteredFrom i ns = ns.filterMap f
  | _, [], _ => rfl
  | i, child :: rest, h => by
      have hc : n.entered i child = f child := h 0 child List.mem_cons_self
      have hrest : n.enteredFrom (i + 1) rest = rest.filterMap f := by
        refine enteredFrom_eq_filterMap ?_
        intro j c hc
        rw [Nat.add_assoc]
        exact h (1 + j) c (List.mem_cons_of_mem _ hc)
      rw [enteredFrom, hc, hrest, List.filterMap_cons]
      cases f child <;> rfl

/-- Where every step is barred, nothing is entered. -/
theorem enteredFrom_eq_nil {n : Node} {i : Nat} {ns : List Node}
    (h : ∀ j child, child ∈ ns → n.bars true (i + j) child = true) : n.enteredFrom i ns = [] := by
  rw [enteredFrom_eq_filterMap (f := fun _ => none) fun j c hc => ?_]
  · exact List.filterMap_eq_nil_iff.mpr fun _ _ => rfl
  · rw [entered, if_pos (h j c hc)]

/-- Joins stand in the body of a query only; elsewhere the search enters the children themselves. -/
theorem Shaped.entered_eq {n child : Node} (h : n.Shaped) (hk : n.kind ≠ .queryBody)
    (hc : child ∈ n.children) (i : Nat) :
    n.entered i child = if n.bars true i child then none else some child := by
  have hj : child.kind ≠ .joinClause := fun hj =>
    hk (Kind.eq_queryBody_of_mayHold (hj ▸ h.mayHold hc))
  rw [entered, if_neg hj]

/-- Where no step is barred, all children are entered. -/
theorem Shaped.enteredFrom_all {n : Node} (h : n.Shaped) (hk : n.kind ≠ .queryBody)
    (hb : ∀ i child, n.bars true i child = false) : n.enteredFrom 0 n.children = n.children := by
  rw [enteredFrom_eq_filterMap (f := some) fun j c hc => ?_, List.filterMap_some]
  rw [h.entered_eq hk hc, hb, if_neg Bool.false_ne_true]

/-- Where all steps but the first are barred, the first child is entered. -/
theorem Shaped.enteredFrom_take {n : Node} (h : n.Shaped) (hk : n.kind ≠ .queryBody)
    (hb : ∀ i child, n.bars true i child = (i != 0)) :
    n.enteredFrom 0 n.children = n.children.take 1 := by
  cases hc : n.children with
  | nil => rfl
  | cons child rest =>
      have hfirst : n.entered 0 child = some child := by
        rw [h.entered_eq hk (hc ▸ List.mem_cons_self), hb]
        rfl
      have hrest : n.enteredFrom 1 rest = [] :=
        enteredFrom_eq_nil fun j c _ => by rw [hb]; simp
      rw [enteredFrom, hfirst, hrest]
      rfl

/-- Of a loop with its condition at the end, the condition is entered. -/
theorem Shaped.enteredFrom_doStatement {n : Node} (h : n.Shaped) (hk : n.kind = .doStatement) :
    n.enteredFrom 0 n.children = n.children.drop 1 := by
  obtain ⟨body, condition, hc⟩ := h.doStatement hk
  have hbody : n.entered 0 body = none := by simp [entered, bars, hk]
  have hcondition : n.entered 1 condition = some condition := by
    rw [h.entered_eq (by simp [hk]) (by simp [hc])]
    simp [bars, hk]
  rw [hc, enteredFrom, enteredFrom, enteredFrom, hbody, hcondition]
  rfl

/-- Of a section of a switch, the labels with patterns are entered. -/
theorem Shaped.enteredFrom_switchSection {n : Node} (h : n.Shaped)
    (hk : n.kind = .switchSection) :
    n.enteredFrom 0 n.children = n.children.filter (·.kind == .casePatternSwitchLabel) := by
  rw [← List.filterMap_eq_filter]
  refine enteredFrom_eq_filterMap ?_
  intro j child hc
  have hb : n.bars true (0 + j) child = !(child.kind == .casePatternSwitchLabel) := by
    have := Kind.forall_of_all
      (P := fun kind => !Kind.mayHold .switchSection kind ||
        (kind.isStatement || kind == .caseSwitchLabel || kind == .defaultSwitchLabel) ==
          !(kind == .casePatternSwitchLabel)) (by decide) child.kind
    have hm := h.mayHold hc
    rw [hk] at hm
    simpa [bars, hk, hm] using this
  rw [h.entered_eq (by simp [hk]) hc, hb, Option.guard]
  cases child.kind == .casePatternSwitchLabel <;> rfl

/-- Of a switch expression, the value that is examined is entered. -/
theorem Shaped.enteredFrom_switchExpression {n : Node} (h : n.Shaped)
    (hk : n.kind = .switchExpression) : n.enteredFrom 0 n.children = n.children.take 1 := by
  obtain ⟨e, arms, hc, he, ha⟩ := h.switchExpression hk
  have hfirst : n.entered 0 e = some e := by
    rw [h.entered_eq (by simp [hk]) (by simp [hc])]
    have hne : e.kind ≠ .switchExpressionArm := fun hne => by simp [hne, Kind.isExpression] at he
    simp [bars, hk, hne]
  have hrest : n.enteredFrom 1 arms = [] :=
    enteredFrom_eq_nil fun j c hc => by simp [bars, hk, ha c hc]
  rw [hc, enteredFrom, hfirst, hrest]
  rfl

/-- Of the body of a query, the sources of the joins and the continuation are entered. -/
theorem Shaped.enteredFrom_queryBody {n : Node} (h : n.Shaped) (hk : n.kind = .queryBody) :
    n.enteredFrom 0 n.children = n.children.filterMap fun child =>
      match child.kind with
      | .joinClause => child.joinSource?
      | .queryContinuation => some child
      | _ => none := by
  refine enteredFrom_eq_filterMap ?_
  intro j child hc
  have hb : n.bars true (0 + j) child =
      !(child.kind == .joinClause || child.kind == .queryContinuation) := by
    -- Of the kinds that a body has room for, the bars spare just these two.
    have := Kind.forall_of_all
      (P := fun kind => !Kind.mayHold .queryBody kind ||
        ((kind.isQueryClause && kind != .joinClause) || kind == .selectClause ||
          kind == .groupClause) ==
          !(kind == .joinClause || kind == .queryContinuation)) (by decide) child.kind
    have hm := h.mayHold hc
    rw [hk] at hm
    simpa [bars, hk, hm] using this
  rw [entered, hb]
  by_cases hj : child.kind = .joinClause
  · simp [hj]
  · by_cases hq : child.kind = .queryContinuation
    · simp [hq]
    · simp [hj, hq]

/-- What is searched plainly is what no barred step leads to. -/
theorem Shaped.plainlySearched_eq {n : Node} (h : n.Shaped) :
    n.plainlySearched = n.enteredFrom 0 n.children := by
  symm
  unfold plainlySearched searched
  split
  · next hk => exact h.enteredFrom_all (by simp [hk]) fun i child => by simp [bars, hk]
  · next hne =>
    split
    iterate 4
      · next hk => exact h.enteredFrom_take (by simp [hk]) fun i child => by simp [bars, hk]
    · next hk => exact h.enteredFrom_switchExpression hk
    · next hk => exact h.enteredFrom_doStatement hk
    · next hk => exact h.enteredFrom_switchSection hk
    · next hk => exact h.enteredFrom_queryBody hk
    iterate 3
      · next hk => exact enteredFrom_eq_nil fun j c _ => by simp [bars, hk]
    · next hk => exact absurd hk hne
    · refine h.enteredFrom_all ‹_› fun i child => ?_
      unfold bars
      split
      all_goals first | contradiction | rfl

/-! ### The search as a walk over the nodes it comes to -/

/-- Below a join that the search comes to, it comes to what lies in the join's source. -/
theorem Shaped.reached_joinClause {n : Node} (h : n.Shaped) (hk : n.kind = .joinClause) :
    ∃ source i, n.joinSource? = some source ∧ source ∈ n.children ∧
      n.reached false =
        ((source.reached true).map fun (path, m) => (i :: path, m)) ++ [([], n)] := by
  obtain ⟨types, source, left, right, hc, ht, he⟩ := h.joinClause hk
  have hj : source.kind ≠ .joinClause := fun hj => by
    rw [hj] at he
    exact absurd he (by decide)
  refine ⟨source, types.length, by simp [joinSource?, hc], by simp [hc], ?_⟩
  rw [reached_eq, hc, ← reached_eq_reached_true hj false]
  match types, ht with
  | [], _ => simp [reachedFrom, bars, hk, hc]
  | [t], _ => simp [reachedFrom, bars, hk, hc]

end Node

namespace Search

open Node

variable {σ S : Type}

theorem report_joinClause (s : Search σ S) {n : Node} (h : n.kind = .joinClause) :
    s.report n = pure () := by
  simp [report, Node.site?, h]

/-- What a search does on the way to the children of `n` is to report what it comes to there. -/
theorem visitAll_enteredFrom (s : Search σ S) {n : Node}
    (ih : ∀ m, m.size < n.size → m.Grammatical →
      s.visit m = forM (m.reached true) fun r => s.report r.2) :
    ∀ {i : Nat} {ns : List Node}, (∀ child ∈ ns, child.Grammatical ∧ child.size < n.size) →
      s.visitAll (n.enteredFrom i ns) = forM (n.reachedFrom true i ns) fun r => s.report r.2
  | _, [], _ => by rw [enteredFrom, reachedFrom, visitAll_nil, List.forM_nil]
  | i, child :: rest, h => by
      have hrest : s.visitAll (n.enteredFrom (i + 1) rest) =
          forM (n.reachedFrom true (i + 1) rest) fun r => s.report r.2 :=
        visitAll_enteredFrom s ih fun c hc => h c (List.mem_cons_of_mem _ hc)
      obtain ⟨hg, hsize⟩ := h child List.mem_cons_self
      rw [enteredFrom, reachedFrom, visitAll_append, List.forM_append, hrest]
      congr 1
      rw [entered]
      split
      · exact visitAll_nil s
      · rw [List.forM_map]
        split
        · next hj =>
          -- A join is entered at its source, and itself has nothing to report.
          obtain ⟨source, j, hs, hc, hr⟩ := hg.shaped.reached_joinClause hj
          have hv := ih source (Nat.lt_trans (size_lt_of_mem_children hc) hsize)
            (hg.child hc)
          rw [hs, hr, List.forM_append, List.forM_map, List.forM_cons, report_joinClause s hj]
          simp [visitAll_cons, visitAll_nil, hv]
        · next hj =>
          rw [reached_eq_reached_true hj false]
          simp [visitAll_cons, visitAll_nil, ih child hsize hg]

/-- **The search reports every node it comes to, in the order of the walk.** -/
theorem visit_eq_reached (s : Search σ S) {n : Node} (h : n.Grammatical) :
    s.visit n = forM (n.reached true) fun r => s.report r.2 := by
  rw [visit_eq_visitAll_plainlySearched, h.shaped.plainlySearched_eq, reached_eq, List.forM_append,
    visitAll_enteredFrom s (fun m _ hm => visit_eq_reached s hm) fun child hc =>
      ⟨h.child hc, size_lt_of_mem_children hc⟩]
  simp
termination_by n.size

end Search

end InlineLocals
