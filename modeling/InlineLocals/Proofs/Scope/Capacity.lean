import InlineLocals.Proofs.Scope.Invariant
import InlineLocals.Proofs.Scope.Registered

/-!
# Scope — Capacity

How large the numbers of scopes and symbols become.  A search reports no node twice, so it makes no
more symbols than there are nodes (`Search.addsAtMost_visit`), and the numbers that a job uses up
are bounded by the size of its container (`ScopeBuilder.nextSymbol_build_le`).  There is one scope
for each job.  Where both counters are kept in machine words, a list of jobs stays below the limit
if its containers do (`ScopeBuilder.fits_buildAll`).
-/

namespace InlineLocals

open Run (Adds)

/-! ### Runs that add a number of symbols -/

/-- The run adds symbols, and no more than `bound` of them. -/
def Run.AddsAtMost (bound : Nat) (x : Run SymbolId LocalSymbol Unit) : Prop :=
  ∃ xs r, Adds x xs r ∧ xs.length ≤ bound

namespace Run.AddsAtMost

variable {k l : Nat} {x y : Run SymbolId LocalSymbol Unit}

theorem nothing : AddsAtMost 0 (pure ()) := ⟨[], .ok (), adds_pure, Nat.le_refl _⟩

theorem mono (h : AddsAtMost k x) (hle : k ≤ l) : AddsAtMost l x := by
  obtain ⟨xs, r, hx, hlen⟩ := h
  exact ⟨xs, r, hx, Nat.le_trans hlen hle⟩

/-- One run after another adds no more than both bounds together. -/
theorem bind (hx : AddsAtMost k x) (hy : AddsAtMost l y) : AddsAtMost (k + l) (do x; y) := by
  obtain ⟨xs, r, hx, hxs⟩ := hx
  obtain ⟨ys, r', hy, hys⟩ := hy
  cases r with
  | error e => exact ⟨xs, .error e, hx.bind_error, Nat.le_trans hxs (Nat.le_add_right _ _)⟩
  | ok u =>
      refine ⟨xs ++ ys, r', hx.bind hy, ?_⟩
      rw [List.length_append]
      exact Nat.add_le_add hxs hys

/-- What adds to each node in proportion adds to all of them so. -/
theorem forM_nodes {f : Node → Run SymbolId LocalSymbol Unit} : ∀ {ns : List Node},
    (∀ n ∈ ns, AddsAtMost (k * n.size) (f n)) → AddsAtMost (k * Node.sizeAll ns) (ns.forM f)
  | [], _ => nothing
  | n :: ns, h => by
      rw [List.forall_mem_cons] at h
      rw [Node.sizeAll, Nat.mul_add]
      exact h.1.bind (forM_nodes h.2)

end Run.AddsAtMost

open Run (AddsAtMost)

namespace Search

variable {s : Locals} {names : Names}

/-- A report adds one symbol or none. -/
theorem addsAtMost_report (hf : s.factory = LocalSymbol.factory names) (n : Node) :
    AddsAtMost 1 (s.report n) := by
  refine ⟨_, _, adds_report hf n, ?_⟩
  cases s.request n with
  | error e => exact Nat.zero_le _
  | ok call? => cases call? <;> simp

mutual

/-- A search makes at most one symbol for each node. -/
theorem addsAtMost_visit (hf : s.factory = LocalSymbol.factory names) (n : Node) :
    AddsAtMost n.size (s.visit n) := by
  have hlt := Node.sizeAll_searched_lt n
  rw [visit_eq]
  exact ((addsAtMost_visitAll hf n.searched).bind (addsAtMost_report hf n)).mono hlt
termination_by 2 * n.size
decreasing_by have := Node.sizeAll_searched_lt n; omega

theorem addsAtMost_visitAll (hf : s.factory = LocalSymbol.factory names) (ns : List Node) :
    AddsAtMost (Node.sizeAll ns) (s.visitAll ns) := by
  match ns with
  | [] =>
      rw [visitAll_nil]
      exact .nothing
  | n :: rest =>
      rw [visitAll_cons]
      exact (addsAtMost_visit hf n).bind (addsAtMost_visitAll hf rest)
termination_by 2 * Node.sizeAll ns + 1
decreasing_by all_goals have := Node.size_pos n; simp only [Node.sizeAll]; omega

end

/-- A declarator adds its own variable and what its initial value declares. -/
theorem addsAtMost_collectDeclarator (hf : s.factory = LocalSymbol.factory names)
    (type declarator : Node) :
    AddsAtMost (2 * declarator.size) (s.collectDeclarator names type declarator) := by
  have hpos := declarator.size_pos
  have hvisit := addsAtMost_visit hf declarator
  unfold collectDeclarator
  cases declarator.identifier? with
  | none => exact (AddsAtMost.nothing.bind hvisit).mono (by omega)
  | some i =>
      have own : AddsAtMost 1 (append (LocalSymbol.regular names s.scope type i)) :=
        ⟨_, _, adds_regular names s.scope type i, Nat.le_refl _⟩
      exact (own.bind hvisit).mono (by omega)

theorem addsAtMost_collectStatement (hf : s.factory = LocalSymbol.factory names)
    (statement : Node) :
    AddsAtMost (2 * statement.size) (s.collectStatement names statement) := by
  unfold collectStatement
  split
  · next type declarators _ hc =>
    refine (AddsAtMost.forM_nodes fun d _ => addsAtMost_collectDeclarator hf type d).mono ?_
    rw [statement.size_eq, hc]
    simp only [Node.sizeAll, Node.size]
    omega
  · split
    · exact (addsAtMost_visit hf statement).mono (by omega)
    · exact AddsAtMost.nothing.mono (Nat.zero_le _)

/-- The children of nodes are smaller together than the nodes. -/
theorem sizeAll_flatMap_children_le (ns : List Node) :
    Node.sizeAll (ns.flatMap Node.children) ≤ Node.sizeAll ns := by
  induction ns with
  | nil => exact Nat.le_refl _
  | cons n ns ih =>
      rw [List.flatMap_cons, Node.sizeAll_append, Node.sizeAll, n.size_eq]
      omega

/-- A container makes symbols in proportion to its size: a declarator makes one of its own besides
those that are searched, and a section is searched as a whole besides its statements. -/
theorem addsAtMost_collect (hf : s.factory = LocalSymbol.factory names) (container : Container) :
    AddsAtMost (3 * Node.sizeAll container.nodes) (s.collect names container) := by
  have statements (ns : List Node) :
      AddsAtMost (2 * Node.sizeAll ns) (ns.forM (s.collectStatement names)) :=
    .forM_nodes fun n _ => addsAtMost_collectStatement hf n
  cases container with
  | statements ns => exact (statements ns).mono (Nat.mul_le_mul_right _ (by decide))
  | switchSection node =>
      refine ((addsAtMost_visit hf node).bind (statements _)).mono ?_
      have hle := Node.sizeAll_le_of_sublist
        (List.filter_sublist (p := fun c => c.kind.isStatement) (l := node.children))
      have hsize := node.size_eq
      simp only [Container.nodes, Node.sizeAll]
      omega
  -- The arguments are three levels below the node.
  | constructorInitializer node =>
      have hlists := sizeAll_flatMap_children_le node.children
      have harguments := sizeAll_flatMap_children_le (node.children.flatMap Node.children)
      have hsize := node.size_eq
      rw [List.flatMap_assoc] at harguments
      refine (addsAtMost_visitAll (s := { s with enclosing := none }) hf _).mono ?_
      simp only [Container.nodes, Node.sizeAll]
      omega

end Search

/-! ### Builders within a limit -/

namespace ScopeBuilder

variable {tree : Tree} {names : Names}

/-- The most numbers that the symbols of all jobs use up. -/
def symbolBound (jobs : List Job) : Nat :=
  (jobs.map fun job => 3 * Node.sizeAll job.container.nodes).sum

/-- The bounds of jobs add up. -/
theorem symbolBound_append (jobs more : List Job) :
    symbolBound (jobs ++ more) = symbolBound jobs + symbolBound more := by
  simp [symbolBound]

/-- One job uses up a bounded number of numbers, also when it fails. -/
theorem nextSymbol_build_le (b : ScopeBuilder) (job : Job) :
    (b.build tree names job.parent job.container).2.nextSymbol ≤
      b.nextSymbol + symbolBound [job] := by
  obtain ⟨xs, r, hadds, hlen⟩ := Search.addsAtMost_collect
    (Search.factory_inScope tree names b.scopes.size job.parent) job.container
  rw [b.build_eq hadds]
  refine Nat.add_le_add_left (Nat.le_trans hlen ?_) _
  exact Nat.le_of_eq (List.sum_singleton).symm

/-- The next number is bounded by what all jobs together may add. -/
theorem nextSymbol_buildAll_le (jobs : List Job) :
    (buildAll tree names {} jobs).nextSymbol ≤ symbolBound jobs :=
  buildAll_induction (P := fun b jobs => b.nextSymbol ≤ symbolBound jobs) (Nat.zero_le _)
    (fun b jobs job h => by
      rw [symbolBound_append]
      exact Nat.le_trans (b.nextSymbol_build_le job) (Nat.add_le_add_right h _)) jobs

/-- The counters of the builder and the numbers of its scopes and symbols are below the limit. -/
structure Fits (b : ScopeBuilder) (limit : Nat) : Prop where
  size_lt : b.scopes.size < limit
  nextSymbol_lt : b.nextSymbol < limit
  scope : ∀ k s, b.scopes.get? k = some s → s.id < limit
  symbol : ∀ x ∈ b.symbols, x.id < limit

/-- **Builders fit.**  If there are fewer jobs than the limit, and what their containers can use up
is below it, then so is every number of the builder, after each of the jobs. -/
theorem fits_buildAll {jobs : List Job} {limit : Nat} (hjobs : jobs.length < limit)
    (hsymbols : symbolBound jobs < limit) (k : Nat) :
    (buildAll tree names {} (jobs.take k)).Fits limit := by
  have htraced : Traced tree names (buildAll tree names {} (jobs.take k)) (jobs.take k) :=
    traced_buildAll _
  have hsize : (buildAll tree names {} (jobs.take k)).scopes.size < limit := by
    rw [htraced.size, List.length_take]
    exact Nat.lt_of_le_of_lt (Nat.min_le_right _ _) hjobs
  have hnext : (buildAll tree names {} (jobs.take k)).nextSymbol < limit := by
    have hle : (buildAll tree names {} (jobs.take k)).nextSymbol ≤ symbolBound (jobs.take k) :=
      nextSymbol_buildAll_le _
    rw [← jobs.take_append_drop k, symbolBound_append] at hsymbols
    exact Nat.lt_of_le_of_lt (Nat.le_trans hle (Nat.le_add_right _ _)) hsymbols
  refine ⟨hsize, hnext, fun i s hs => ?_, fun x hx => ?_⟩
  · have hlt : i < (buildAll tree names {} (jobs.take k)).scopes.size :=
      (Array.getElem?_eq_some_iff.mp hs).1
    obtain ⟨job, next, xs, r, -, -, rfl⟩ := htraced.exists_job i s hs
    rw [Scope.holding, Scope.id_declareAll]
    exact Nat.lt_trans hlt hsize
  · exact Nat.lt_trans ((increasing_buildAll (jobs.take k)).lt_nextSymbol x hx) hnext

end ScopeBuilder

end InlineLocals
