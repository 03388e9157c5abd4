import InlineLocals.Proofs.Scope.Adding
import Mathlib.Data.List.Induction

/-!
# Scope — Building

What building scopes comes to.  A build appends one scope and leaves the others alone
(`ScopeBuilder.build_eq`): the new scope holds what the search of the container added, or nothing
when the search failed.  So every scope of a builder goes back to the one job that made it, by its
place (`ScopeBuilder.traced_buildAll`), and what holds at the start and is kept by one job holds
after every list of jobs (`ScopeBuilder.buildAll_induction`).
-/

namespace InlineLocals

open LocalSymbol (number)
open Run (Adds AddsOnly)

/-! ### One build -/

namespace Scope

/-- Symbols that are declared come after those that there are. -/
theorem symbols_declareAll (s : Scope) (xs : List LocalSymbol) :
    (s.declareAll xs).symbols.toList = s.symbols.toList ++ xs := by
  rw [declareAll]
  induction xs generalizing s with
  | nil => simp
  | cons x xs ih => rw [List.foldl_cons, ih]; simp [declare]

theorem id_declareAll (s : Scope) (xs : List LocalSymbol) : (s.declareAll xs).id = s.id := by
  rw [declareAll]
  induction xs generalizing s with
  | nil => rfl
  | cons x xs ih => exact ih (s.declare x)

theorem parent_declareAll (s : Scope) (xs : List LocalSymbol) :
    (s.declareAll xs).parent = s.parent := by
  rw [declareAll]
  induction xs generalizing s with
  | nil => rfl
  | cons x xs ih => exact ih (s.declare x)

/-- The symbols that stay of those that a search added: none when it failed. -/
def kept (xs : List LocalSymbol) : Except ContextError Unit → List LocalSymbol
  | .ok () => xs
  | .error _ => []

theorem mem_of_mem_kept {xs : List LocalSymbol} {r : Except ContextError Unit} {x : LocalSymbol}
    (h : x ∈ kept xs r) : x ∈ xs := by
  cases r with
  | ok u => exact h
  | error e => cases h

/-- A new scope with the symbols of a list. -/
def holding (id : ScopeId) (parent : Option ScopeId) (xs : List LocalSymbol) : Scope :=
  (empty id parent).declareAll xs

theorem symbols_holding (id : ScopeId) (parent : Option ScopeId) (xs : List LocalSymbol) :
    (holding id parent xs).symbols.toList = xs := by
  rw [holding, symbols_declareAll]
  rfl

theorem mem_symbols_holding {id : ScopeId} {parent : Option ScopeId} {xs : List LocalSymbol}
    {x : LocalSymbol} : x ∈ (holding id parent xs).symbols ↔ x ∈ xs := by
  rw [← Array.mem_toList_iff, symbols_holding]

/-- Numbering the symbols that stay is keeping the numbered ones. -/
theorem kept_number (next : SymbolId) (xs : List LocalSymbol) (r : Except ContextError Unit) :
    kept (number next xs) r = number next (kept xs r) := by
  cases r <;> rfl

/-- What a search adds only, the scope that keeps its symbols holds only. -/
theorem forall_mem_holding {Q : LocalSymbol → Prop} (hid : ∀ x id, Q x → Q (x.withId id))
    {x : Run SymbolId LocalSymbol Unit} {xs : List LocalSymbol} {r : Except ContextError Unit}
    (h : Adds x xs r) (hQ : AddsOnly Q x) (id : ScopeId) (parent : Option ScopeId)
    (next : SymbolId) : ∀ y ∈ (holding id parent (number next (kept xs r))).symbols, Q y := by
  obtain ⟨ys, r', h', hys⟩ := hQ
  intro y hy
  rw [mem_symbols_holding, ← kept_number] at hy
  have hmem : y ∈ number next ys := (h.unique h').2 next ▸ mem_of_mem_kept hy
  obtain ⟨z, hz, id, rfl⟩ := LocalSymbol.exists_of_mem_number hmem
  exact hid z id (hys z hz)

end Scope

/-- Declaring symbols in the scope that was made last. -/
theorem Scopes.declareAll_push (ss : Scopes) (parent : Option ScopeId) (xs : List LocalSymbol) :
    (ss.push parent).2.declareAll ss.size xs =
      ⟨ss.scopes.push (.holding ss.size parent xs)⟩ := by
  refine congrArg Scopes.mk (Array.ext_getElem? fun k => ?_)
  rw [Array.getElem?_modify, Array.getElem?_push, Scopes.push, Array.getElem?_push]
  by_cases hk : ss.size = k
  · simp [← hk, Scopes.size, Scope.holding]
  · rw [if_neg hk, if_neg fun h => hk h.symm, if_neg fun h => hk h.symm]

/-- The search for the variables of the scope with a number. -/
def Search.inScope (tree : Tree) (names : Names) (scope : ScopeId) (enclosing : Option ScopeId) :
    Search.Locals :=
  { tree, factory := LocalSymbol.factory names, scope, enclosing }

theorem Search.factory_inScope (tree : Tree) (names : Names) (scope : ScopeId)
    (enclosing : Option ScopeId) :
    (inScope tree names scope enclosing).factory = LocalSymbol.factory names :=
  rfl

namespace ScopeBuilder

variable {tree : Tree} {names : Names}

/-- **One build** appends one scope, whose symbols are those that the search of the container
added. -/
theorem build_eq (b : ScopeBuilder) {parent : Option ScopeId} {container : Container}
    {xs : List LocalSymbol} {r : Except ContextError Unit}
    (h : Adds ((Search.inScope tree names b.scopes.size parent).collect names container) xs r) :
    b.build tree names parent container =
      (r.map fun _ => b.scopes.size,
        { scopes := ⟨b.scopes.scopes.push
            (.holding b.scopes.size parent (number b.nextSymbol (Scope.kept xs r)))⟩
          nextSymbol := b.nextSymbol + xs.length }) := by
  have hrun := h ⟨#[], b.nextSymbol⟩
  have hfound : ((⟨#[], b.nextSymbol⟩ : Progress SymbolId LocalSymbol).adding xs).found.toList =
      number b.nextSymbol xs := by
    simp [Progress.adding]
  unfold build
  simp only [Scopes.push]
  rw [Search.inScope] at hrun
  rw [hrun]
  -- A failed search has declared nothing, so the pushed scope stays empty.
  cases r with
  | error e => rfl
  | ok u =>
      refine Prod.ext rfl ?_
      have hd := b.scopes.declareAll_push parent (number b.nextSymbol xs)
      rw [← hfound] at hd
      exact congrArg (ScopeBuilder.mk · (b.nextSymbol + xs.length)) (hfound ▸ hd)

/-! ### Lists of builds -/

/-- A container whose scope is to be built, and the scope around it. -/
structure Job where
  parent : Option ScopeId
  container : Container

/-- Builds the scopes of a list of jobs, one after the other and whether they succeed or not. -/
def buildAll (tree : Tree) (names : Names) (b : ScopeBuilder) (jobs : List Job) : ScopeBuilder :=
  jobs.foldl (fun b job => (b.build tree names job.parent job.container).2) b

/-- One more job is built after the others. -/
theorem buildAll_append (b : ScopeBuilder) (jobs : List Job) (job : Job) :
    b.buildAll tree names (jobs ++ [job]) =
      ((b.buildAll tree names jobs).build tree names job.parent job.container).2 := by
  rw [buildAll, List.foldl_append]
  rfl

/-- What holds before the first job and is kept by one more job holds after all of them. -/
theorem buildAll_induction {P : ScopeBuilder → List Job → Prop} (start : P {} [])
    (step : ∀ b jobs job, P b jobs →
      P (b.build tree names job.parent job.container).2 (jobs ++ [job])) (jobs : List Job) :
    P (buildAll tree names {} jobs) jobs := by
  induction jobs using List.reverseRecOn with
  | nil => exact start
  | append_singleton jobs job ih =>
      rw [buildAll_append]
      exact step _ jobs job ih

/-- The search of a container adds some symbols and ends in some way, whatever the progress. -/
theorem exists_adds (s : Search.Locals) (hs : s.factory = LocalSymbol.factory names)
    (container : Container) : ∃ xs r, Adds (s.collect names container) xs r := by
  let told : Search.Locals := { s with enclosing := container.told s.enclosing }
  have hr (n : Node) : Run.AddsOnly (fun _ => True) (told.report n) :=
    Search.addsOnly_report (s := told) hs fun _ _ => trivial
  have hs : AddsOnly (fun _ => True) (s.collect names container) :=
    Search.addsOnly_collect (fun _ _ => trivial) hr
  obtain ⟨xs, r, h, -⟩ := hs
  exact ⟨xs, r, h⟩

/-- A build leaves the scopes alone that there are. -/
theorem get?_build (b : ScopeBuilder) (parent : Option ScopeId) (container : Container)
    {k : ScopeId} (hk : k < b.scopes.size) :
    (b.build tree names parent container).2.scopes.get? k = b.scopes.get? k := by
  obtain ⟨xs, r, h⟩ := exists_adds (Search.inScope tree names b.scopes.size parent) rfl container
  rw [b.build_eq h]
  exact Array.getElem?_push.trans (if_neg (Nat.ne_of_lt hk))

/-- There are as many scopes as jobs, and the scope at a place holds what the search for the job
at this place kept. -/
structure Traced (tree : Tree) (names : Names) (b : ScopeBuilder) (jobs : List Job) : Prop where
  size : b.scopes.size = jobs.length
  exists_job : ∀ k scope, b.scopes.get? k = some scope → ∃ job next xs r, jobs[k]? = some job ∧
    Adds ((Search.inScope tree names k job.parent).collect names job.container) xs r ∧
    scope = .holding k job.parent (number next (Scope.kept xs r))

/-- A job adds one scope, and each of the others still goes back to its job. -/
theorem Traced.build {b : ScopeBuilder} {jobs : List Job} (h : Traced tree names b jobs)
    (job : Job) :
    Traced tree names (b.build tree names job.parent job.container).2 (jobs ++ [job]) := by
  obtain ⟨xs, r, hadds⟩ := exists_adds (Search.inScope tree names b.scopes.size job.parent) rfl
    job.container
  rw [b.build_eq hadds]
  refine ⟨by simpa [Scopes.size] using h.size, fun k scope hk => ?_⟩
  rw [Scopes.get?, Array.getElem?_push] at hk
  split at hk
  · next he =>
    obtain rfl : k = b.scopes.size := he
    cases hk
    exact ⟨job, b.nextSymbol, xs, r, by simp [h.size], hadds, rfl⟩
  · obtain ⟨old, next, ys, r', hold, hold', rfl⟩ := h.exists_job k scope hk
    have hlt := (List.getElem?_eq_some_iff.mp hold).1
    exact ⟨old, next, ys, r', by rw [List.getElem?_append_left hlt, hold], hold', rfl⟩

/-- **Every scope goes back to a job**, the one at its place. -/
theorem traced_buildAll (jobs : List Job) : Traced tree names (buildAll tree names {} jobs) jobs :=
  buildAll_induction
    ⟨rfl, fun k scope h => by simp [Scopes.get?, Scopes.empty] at h⟩
    (fun _ _ job h => h.build job) jobs

end ScopeBuilder

end InlineLocals
