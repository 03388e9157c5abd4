import InlineLocals.Proofs.Declaration.Lockstep
import InlineLocals.Proofs.Scope.Invariant
import Mathlib.Logic.Equiv.Basic

/-!
# Scope — Exchange

Two builds in either order.  A build takes two things from what was built before it: the number of
its scope and the numbers of its symbols.  The search of a container is the same in a scope with
another number, and so are its symbols but for the scope that they name, as is shown in lock step
(`Search.addsAlike_collect`).  So whether a build comes first or second, it ends alike and makes
the same scope up to numbers: the two new scopes exchange theirs, and the stretch of numbers that
the symbols of one take is exchanged with that of the other (`ScopeBuilder.build_exchange`).
-/

namespace InlineLocals

open LocalSymbol (number)
open Run (Adds)

/-! ### Other numbers -/

namespace LocalSymbol

/-- The symbol in another scope. -/
def withScope (scope : ScopeId) (x : LocalSymbol) : LocalSymbol := { x with scope }

/-- The symbol with other numbers for itself and for its scope. -/
def rename (scopes : ScopeId → ScopeId) (ids : SymbolId → SymbolId) (x : LocalSymbol) :
    LocalSymbol :=
  { x with id := ids x.id, scope := scopes x.scope }

/-- Symbols that are numbered from `next` on, renamed, are numbered from `next'` on. -/
theorem map_rename_number {scopes : ScopeId → ScopeId} {ids : SymbolId → SymbolId} {k : ScopeId} :
    ∀ {next next' : SymbolId} {xs : List LocalSymbol},
      (∀ i < xs.length, ids (next + i) = next' + i) →
        (number next (xs.map (withScope k))).map (rename scopes ids) =
          number next' (xs.map (withScope (scopes k)))
  | _, _, [], _ => rfl
  | next, next', x :: xs, h => by
      have hx : ids next = next' := h 0 (Nat.zero_lt_succ _)
      have hxs : ∀ i < xs.length, ids (next + 1 + i) = next' + 1 + i := by
        intro i hi
        have := h (i + 1) (Nat.succ_lt_succ hi)
        rwa [Nat.add_right_comm, Nat.add_assoc next, Nat.add_right_comm, Nat.add_assoc next']
      simp only [List.map_cons, number, map_rename_number hxs]
      simp [rename, withScope, withId, hx]

end LocalSymbol

open LocalSymbol (withScope rename map_rename_number)

/-- The second scope is the first under other numbers; its parent is the same. -/
structure Scope.Renamed (scopes : ScopeId → ScopeId) (ids : SymbolId → SymbolId) (s s' : Scope) :
    Prop where
  id : s'.id = scopes s.id
  parent : s'.parent = s.parent
  symbols : s'.symbols.toList = s.symbols.toList.map (rename scopes ids)
  locals : ∀ name, s'.locals.get? name = (s.locals.get? name).map ids

/-- A scope that holds the renamed symbols is a renaming of the scope. -/
theorem Scope.renamed_holding (scopes : ScopeId → ScopeId) (ids : SymbolId → SymbolId)
    (k : ScopeId) (parent : Option ScopeId) (xs : List LocalSymbol) :
    (holding k parent xs).Renamed scopes ids
      (holding (scopes k) parent (xs.map (rename scopes ids))) where
  id := by rw [holding, id_declareAll, holding, id_declareAll]; rfl
  parent := by rw [holding, parent_declareAll, holding, parent_declareAll]; rfl
  symbols := by rw [symbols_holding, symbols_holding]
  locals name := by
    have hname : ∀ x, (rename scopes ids x).name = x.name := fun _ => rfl
    rw [(tabled_holding _ _ _).get?_locals, (tabled_holding _ _ _).get?_locals, symbols_holding,
      symbols_holding, LocalSymbol.latest?_map hname, Option.map_map, Option.map_map]
    rfl

/-- A scope whose symbols are numbered from elsewhere on. -/
theorem Scope.renamed_number {scopes : ScopeId → ScopeId} {ids : SymbolId → SymbolId}
    {k k' : ScopeId} (hk : scopes k = k') (parent : Option ScopeId) {next next' : SymbolId}
    {xs : List LocalSymbol} (h : ∀ i < xs.length, ids (next + i) = next' + i) :
    (holding k parent (number next (xs.map (withScope k)))).Renamed scopes ids
      (holding k' parent (number next' (xs.map (withScope k')))) := by
  subst hk
  rw [← map_rename_number h]
  exact renamed_holding scopes ids k parent _

/-- Exchanges the `m` numbers from `next` on with the `n` numbers after them. -/
def exchange (next m n id : Nat) : Nat :=
  if id < next then id
  else if id < next + m then id + n
  else if id < next + m + n then id - m
  else id

/-- Exchanging two blocks of numbers, and then the two in their new places, changes nothing. -/
theorem exchange_exchange (next m n id : Nat) :
    exchange next n m (exchange next m n id) = id := by
  unfold exchange
  split_ifs <;> omega

/-- Exchanging is undone by exchanging back. -/
def exchangePerm (next m n : Nat) : Equiv.Perm Nat where
  toFun := exchange next m n
  invFun := exchange next n m
  left_inv := exchange_exchange next m n
  right_inv := exchange_exchange next n m

/-- Numbers in front of both blocks stay. -/
theorem exchangePerm_of_lt {next m n id : Nat} (h : id < next) : exchangePerm next m n id = id :=
  if_pos h

/-- The first block moves behind the second. -/
theorem exchangePerm_first {next m n i : Nat} (h : i < m) :
    exchangePerm next m n (next + i) = next + n + i := by
  show exchange next m n (next + i) = _
  unfold exchange
  split_ifs <;> omega

/-- The second block moves to the front. -/
theorem exchangePerm_second {next m n i : Nat} (h : i < n) :
    exchangePerm next m n (next + m + i) = next + i := by
  show exchange next m n (next + m + i) = _
  unfold exchange
  split_ifs <;> omega

/-! ### Searches for two scopes -/

/-- Whatever the progress, the runs end alike and add the same symbols, one of them to the scope
`k` and the other to the scope `k'`. -/
def Run.AddsAlike (k k' : ScopeId) (x x' : Run SymbolId LocalSymbol Unit) : Prop :=
  ∃ (xs : List LocalSymbol) (r : Except ContextError Unit),
     Adds x (xs.map (withScope k)) r ∧ Adds x' (xs.map (withScope k')) r

theorem Run.linked_addsAlike (k k' : ScopeId) : Linked (AddsAlike k k') where
  nothing := ⟨[], .ok (), adds_pure, adds_pure⟩
  bind := by
    rintro x y x' y' ⟨xs, r, hx, hx'⟩ ⟨ys, q, hy, hy'⟩
    cases r with
    | ok u => exact ⟨xs ++ ys, q, by simpa using hx.bind hy, by simpa using hx'.bind hy'⟩
    | error e => exact ⟨xs, .error e, hx.bind_error, hx'.bind_error⟩

/-- The call for a variable of another scope. -/
def Call.withScope (scope : ScopeId) : Call → Call
  | pattern _ type name position => pattern scope type name position
  | out _ enclosing type name context => out scope enclosing type name context

/-- The symbol for another scope is the same symbol in the other scope. -/
theorem Call.symbol_withScope (names : Names) (scope : ScopeId) (call : Call) :
    (call.withScope scope).symbol names = (call.symbol names).withScope scope := by
  cases call <;> rfl

namespace Search

open Run (AddsAlike)

/-- What a report asks for depends on the scope by the scope that is told only. -/
theorem request_withScope (s : Locals) (scope : ScopeId) (n : Node) :
    request { s with scope } n = (s.request n).map (Option.map (Call.withScope scope)) := by
  unfold request
  cases n.site? with
  | none => rfl
  | some site =>
      cases site with
      | pattern type designation position =>
          exact congrArg Except.ok (Option.map_map (Call.withScope scope)
            (.pattern s.scope type · position) designation.identifier?).symm
      | expression type designation =>
          cases s.tree.declaringCall n with
          | error e => rfl
          | ok call =>
              exact congrArg Except.ok (Option.map_map (Call.withScope scope)
                (.out s.scope s.enclosing type · call) designation.identifier?).symm

variable {s : Locals} {names : Names}

theorem adds_report_withScope (hf : s.factory = LocalSymbol.factory names) (scope : ScopeId)
    (n : Node) : Adds (report { s with scope } n)
      ((match s.request n with
        | .ok call? => call?.toList.map (Call.symbol names)
        | .error _ => []).map (withScope scope))
      ((s.request n).map fun _ => ()) := by
  have h := adds_report (s := { s with scope }) hf n
  rw [request_withScope] at h
  cases hr : s.request n with
  | error e => rwa [hr] at h
  | ok call? =>
      rw [hr] at h
      cases call? with
      | none => exact h
      | some call => simpa [Except.map, Call.symbol_withScope] using h

/-- A report adds the same symbols whatever the scope, but for the scope itself. -/
theorem addsAlike_report (hf : s.factory = LocalSymbol.factory names) (k k' : ScopeId) (n : Node) :
    AddsAlike k k' (report { s with scope := k } n) (report { s with scope := k' } n) :=
  ⟨_, _, adds_report_withScope hf k n, adds_report_withScope hf k' n⟩

theorem addsAlike_regular (names : Names) (k k' : ScopeId) (type : Node) (i : Identifier) :
    AddsAlike k k' (append (LocalSymbol.regular names k type i))
      (append (LocalSymbol.regular names k' type i)) :=
  ⟨[(LocalSymbol.regular names k type i 0).1], .ok (), adds_regular names k type i,
    adds_regular names k' type i⟩

/-- So does the search of a declarator. -/
theorem addsAlike_collectDeclarator (hf : s.factory = LocalSymbol.factory names) (k k' : ScopeId)
    (type declarator : Node) :
    AddsAlike k k' (collectDeclarator { s with scope := k } names type declarator)
      (collectDeclarator { s with scope := k' } names type declarator) := by
  have linked := Run.linked_addsAlike k k'
  have hv := linked.visit (addsAlike_report hf k k') declarator
  unfold collectDeclarator
  cases declarator.identifier? with
  | none => simpa using hv
  | some i => exact linked.bind (addsAlike_regular names k k' type i) hv

/-- And that of a statement. -/
theorem addsAlike_collectStatement (hf : s.factory = LocalSymbol.factory names) (k k' : ScopeId)
    (statement : Node) :
    AddsAlike k k' (collectStatement { s with scope := k } names statement)
      (collectStatement { s with scope := k' } names statement) := by
  have linked := Run.linked_addsAlike k k'
  unfold collectStatement
  split
  · exact linked.forM (addsAlike_collectDeclarator hf k k' _) _
  · split
    · exact linked.visit (addsAlike_report hf k k') statement
    · exact linked.nothing

/-- **The search of a container does not depend on the number of the scope.** -/
theorem addsAlike_collect (hf : s.factory = LocalSymbol.factory names) (k k' : ScopeId)
    (container : Container) :
    AddsAlike k k' (collect { s with scope := k } names container)
      (collect { s with scope := k' } names container) := by
  have linked := Run.linked_addsAlike k k'
  have hs := linked.forM (addsAlike_collectStatement hf k k')
  cases container with
  | statements statements => exact hs statements
  | switchSection node => exact linked.bind (linked.visit (addsAlike_report hf k k') node) (hs _)
  | constructorInitializer node =>
      exact linked.visitAll (addsAlike_report (s := { s with enclosing := none }) hf k k') _

end Search

/-! ### Builds in either order -/

namespace ScopeBuilder

variable {names : Names}

theorem kept_map {f : LocalSymbol → LocalSymbol} (xs : List LocalSymbol)
    (r : Except ContextError Unit) : Scope.kept (xs.map f) r = (Scope.kept xs r).map f := by
  cases r <;> rfl

/-- A job keeps no more than it adds. -/
theorem length_kept_le (xs : List LocalSymbol) (r : Except ContextError Unit) :
    (Scope.kept xs r).length ≤ xs.length := by
  cases r <;> simp [Scope.kept]

/-- An end under another number of the scope. -/
theorem map_end (scopes : ScopeId → ScopeId) (k : ScopeId) (r : Except ContextError Unit) :
    (r.map fun _ => k).map scopes = r.map fun _ => scopes k := by
  cases r <;> rfl

/-- Two builds, one after the other. -/
theorem build_build_eq (tree : Tree) (b : ScopeBuilder) {x y : Job} {xs ys : List LocalSymbol}
    {r q : Except ContextError Unit}
    (hx : Adds ((Search.inScope tree names b.scopes.size x.parent).collect names x.container) xs r)
    (hy : Adds ((Search.inScope tree names (b.scopes.size + 1) y.parent).collect names y.container)
      ys q) :
    let first := b.build tree names x.parent x.container
    let second := first.2.build tree names y.parent y.container
    first.1 = r.map (fun _ => b.scopes.size) ∧ second.1 = q.map (fun _ => b.scopes.size + 1) ∧
      second.2.scopes.scopes = (b.scopes.scopes.push
        (.holding b.scopes.size x.parent (number b.nextSymbol (Scope.kept xs r)))).push
        (.holding (b.scopes.size + 1) y.parent
          (number (b.nextSymbol + xs.length) (Scope.kept ys q))) := by
  intro first second
  have hfirst : first = _ := b.build_eq hx
  have hsize : first.2.scopes.size = b.scopes.size + 1 := by
    rw [hfirst]
    exact Array.size_push _
  have hsecond : second = _ := first.2.build_eq (hsize ▸ hy)
  rw [hsecond, hsize, hfirst]
  exact ⟨rfl, rfl, rfl⟩

/-- **Builds can be exchanged.**  Whichever of two jobs comes first, each of them ends alike, and
the scope that it makes is the same under other numbers: the two new scopes exchange theirs, the
symbols are renumbered and the table of names follows.  What was there before stays.  Parents are
given by number and are not looked up, so they need not exist. -/
theorem build_exchange (tree : Tree) (names : Names) (b : ScopeBuilder) (x y : Job) :
    let k := b.scopes.size
    let xFirst := b.build tree names x.parent x.container
    let ySecond := xFirst.2.build tree names y.parent y.container
    let yFirst := b.build tree names y.parent y.container
    let xSecond := yFirst.2.build tree names x.parent x.container
    let scopes := Equiv.swap k (k + 1)
    xSecond.1 = xFirst.1.map scopes ∧ yFirst.1 = ySecond.1.map scopes ∧
      ∃ ids : Equiv.Perm SymbolId, (∀ id < b.nextSymbol, ids id = id) ∧ ∃ sx sy sx' sy',
        ySecond.2.scopes.scopes = (b.scopes.scopes.push sx).push sy ∧
        xSecond.2.scopes.scopes = (b.scopes.scopes.push sy').push sx' ∧
        sx.id = k ∧ sx.parent = x.parent ∧ sx.Renamed scopes ids sx' ∧
        sy.id = k + 1 ∧ sy.parent = y.parent ∧ sy.Renamed scopes ids sy' := by
  intro k xFirst ySecond yFirst xSecond scopes
  obtain ⟨xs, r, hx, hx'⟩ := Search.addsAlike_collect
    (Search.factory_inScope tree names k x.parent) k (k + 1) x.container
  obtain ⟨ys, q, hy, hy'⟩ := Search.addsAlike_collect
    (Search.factory_inScope tree names k y.parent) k (k + 1) y.container
  obtain ⟨hxEnd, hyEnd', hxy⟩ := build_build_eq tree b hx hy'
  obtain ⟨hyEnd, hxEnd', hyx⟩ := build_build_eq tree b hy hx'
  -- In either order the first search runs in the scope `k` and the second one in `k + 1`.
  have hk : scopes k = k + 1 := Equiv.swap_apply_left k (k + 1)
  have hk' : scopes (k + 1) = k := Equiv.swap_apply_right k (k + 1)
  rw [kept_map, kept_map, List.length_map] at hxy hyx
  refine ⟨?_, ?_, exchangePerm b.nextSymbol xs.length ys.length, fun id => exchangePerm_of_lt,
    _, _, _, _, hxy, hyx, Scope.id_declareAll _ _, Scope.parent_declareAll _ _, ?_,
    Scope.id_declareAll _ _, Scope.parent_declareAll _ _, ?_⟩
  · calc xSecond.1 = r.map (fun _ => k + 1) := hxEnd'
      _ = (r.map fun _ => k).map scopes := by rw [map_end, hk]
      _ = xFirst.1.map scopes := congrArg _ hxEnd.symm
  · calc yFirst.1 = q.map (fun _ => k) := hyEnd
      _ = (q.map fun _ => k + 1).map scopes := by rw [map_end, hk']
      _ = ySecond.1.map scopes := congrArg _ hyEnd'.symm
  · refine Scope.renamed_number hk x.parent ?_
    intro i hi
    exact exchangePerm_first (Nat.lt_of_lt_of_le hi (length_kept_le xs r))
  · refine Scope.renamed_number hk' y.parent ?_
    intro i hi
    exact exchangePerm_second (Nat.lt_of_lt_of_le hi (length_kept_le ys q))

end ScopeBuilder

end InlineLocals
