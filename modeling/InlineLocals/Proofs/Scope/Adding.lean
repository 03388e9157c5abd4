import InlineLocals.Scope.Builder
import InlineLocals.Proofs.Declaration.Found

/-!
# Scope — Adding

A search for local variables only adds to what was found before it.  The symbols that it adds and
the way it ends do not depend on the progress it starts from; only the numbers of the symbols do,
which go on from the next one (`LocalSymbol.number`).  `Run.Adds` says this of a run, and such runs
compose: the symbols of one come after those of the other, unless the first one fails.

`Run.AddsOnly` bounds what is added by a property of symbols.  It holds of a search as soon as it
holds of the reports (`addsOnly_visit`), and of the search of a container as soon as it holds of
the reports and of the variables of declaration statements (`addsOnly_collect`).
-/

namespace InlineLocals

/-! ### Numbering -/

namespace LocalSymbol

/-- The symbol under another number. -/
def withId (x : LocalSymbol) (id : SymbolId) : LocalSymbol := { x with id }

/-- The symbols of a list, numbered from `next` on. -/
def number (next : SymbolId) : List LocalSymbol → List LocalSymbol
  | [] => []
  | x :: xs => x.withId next :: number (next + 1) xs

/-- A list after another one goes on with its numbers. -/
theorem number_append : ∀ (next : SymbolId) (xs ys : List LocalSymbol),
    number next (xs ++ ys) = number next xs ++ number (next + xs.length) ys
  | _, [], _ => rfl
  | next, x :: xs, ys => by
      rw [List.cons_append, number, number, number_append (next + 1) xs ys, List.length_cons,
        Nat.add_right_comm, Nat.add_assoc, List.cons_append]

/-- The numbers follow one another. -/
theorem map_id_number : ∀ (next : SymbolId) (xs : List LocalSymbol),
    (number next xs).map id = List.range' next xs.length
  | _, [] => rfl
  | next, _ :: xs => by
      rw [number, List.map_cons, map_id_number (next + 1) xs, List.length_cons, List.range'_succ]
      rfl

theorem length_number (next : SymbolId) (xs : List LocalSymbol) :
    (number next xs).length = xs.length := by
  simpa using congrArg List.length (map_id_number next xs)

/-- A numbered symbol is one of the list under another number. -/
theorem exists_of_mem_number {x : LocalSymbol} : ∀ {next : SymbolId} {xs : List LocalSymbol},
    x ∈ number next xs → ∃ y ∈ xs, ∃ id, x = y.withId id
  | next, y :: ys, h => by
      rcases List.mem_cons.mp h with rfl | h
      · exact ⟨y, List.mem_cons_self, next, rfl⟩
      · obtain ⟨z, hz, id, e⟩ := exists_of_mem_number h
        exact ⟨z, List.mem_cons_of_mem _ hz, id, e⟩

/-- Whatever does not look at numbers is the same before and after numbering. -/
theorem map_number {α : Type} {f : LocalSymbol → α} (hf : ∀ x id, f (x.withId id) = f x) :
    ∀ (next : SymbolId) (xs : List LocalSymbol), (number next xs).map f = xs.map f
  | _, [] => rfl
  | next, x :: xs => by
      rw [number, List.map_cons, List.map_cons, hf, map_number hf (next + 1) xs]

end LocalSymbol

open LocalSymbol (number withId)

/-! ### Runs that add -/

namespace Progress

/-- The progress after the symbols of a list, which take the next numbers. -/
def adding (p : Progress SymbolId LocalSymbol) (xs : List LocalSymbol) :
    Progress SymbolId LocalSymbol where
  found := p.found ++ number p.state xs
  state := p.state + xs.length

theorem adding_nil (p : Progress SymbolId LocalSymbol) : p.adding [] = p := by
  simp [adding, number]

/-- Symbols may be added at once or in two parts. -/
theorem adding_append (p : Progress SymbolId LocalSymbol) (xs ys : List LocalSymbol) :
    p.adding (xs ++ ys) = (p.adding xs).adding ys := by
  have hf : p.found ++ number p.state (xs ++ ys) =
      p.found ++ number p.state xs ++ number (p.state + xs.length) ys := by
    apply Array.ext'
    simp [LocalSymbol.number_append]
  simp only [adding, hf, List.length_append, Nat.add_assoc]

/-- The end of a run with this progress. -/
def ending {σ S : Type} (p : Progress σ S) :
    Except ContextError Unit → EStateM.Result ContextError (Progress σ S) Unit
  | .ok () => .ok () p
  | .error e => .error e p

/-- How a run ends, and with what progress, can be told from its result. -/
theorem ending_inj {σ S : Type} {p q : Progress σ S} {r r' : Except ContextError Unit}
    (h : p.ending r = q.ending r') : r = r' ∧ p = q := by
  cases r <;> cases r' <;> simp_all [ending]

end Progress

namespace Run

/-- Whatever the progress, the run adds the symbols of the list and ends so. -/
def Adds (x : Run SymbolId LocalSymbol Unit) (xs : List LocalSymbol)
    (r : Except ContextError Unit) : Prop :=
  ∀ p : Progress SymbolId LocalSymbol, x.run p = (p.adding xs).ending r

theorem adds_pure : Adds (pure ()) [] (.ok ()) := fun p => by
  rw [Progress.adding_nil]
  rfl

/-- A run after another one adds its symbols after those of the first. -/
theorem Adds.bind {x y : Run SymbolId LocalSymbol Unit} {xs ys : List LocalSymbol}
    {r : Except ContextError Unit} (hx : Adds x xs (.ok ())) (hy : Adds y ys r) :
    Adds (do x; y) (xs ++ ys) r := fun p => by
  rw [EStateM.run_bind, hx p]
  simp only [Progress.ending, hy (p.adding xs), Progress.adding_append]

/-- After a failure nothing is run. -/
theorem Adds.bind_error {x y : Run SymbolId LocalSymbol Unit} {xs : List LocalSymbol}
    {e : ContextError} (hx : Adds x xs (.error e)) : Adds (do x; y) xs (.error e) := fun p => by
  rw [EStateM.run_bind, hx p]
  rfl

/-- What a run adds is settled but for the numbers, and so is its end. -/
theorem Adds.unique {x : Run SymbolId LocalSymbol Unit} {xs ys : List LocalSymbol}
    {r r' : Except ContextError Unit} (hx : Adds x xs r) (hy : Adds x ys r') :
    r = r' ∧ ∀ next, number next xs = number next ys := by
  have runs (next : SymbolId) := Progress.ending_inj ((hx ⟨#[], next⟩).symm.trans (hy ⟨#[], next⟩))
  refine ⟨(runs 0).1, fun next => ?_⟩
  simpa [Progress.adding] using congrArg (fun p => p.found.toList) (runs next).2

/-- How a run ends, and what it adds to what was found before. -/
def outcome (x : Run SymbolId LocalSymbol Unit) (p : Progress SymbolId LocalSymbol) :
    Except ContextError Unit × List LocalSymbol :=
  match x.run p with
  | .ok () q => (.ok (), q.found.toList.drop p.found.size)
  | .error e q => (.error e, q.found.toList.drop p.found.size)

/-- The outcome of a run by itself: its end, and its symbols from the next number on. -/
theorem Adds.outcome_eq {x : Run SymbolId LocalSymbol Unit} {xs : List LocalSymbol}
    {r : Except ContextError Unit} (h : Adds x xs r) (p : Progress SymbolId LocalSymbol) :
    x.outcome p = (r, number p.state xs) := by
  have hdrop : (p.adding xs).found.toList.drop p.found.size = number p.state xs := by
    simp [Progress.adding]
  rw [outcome, h p]
  cases r with
  | error e | ok u => exact congrArg (Prod.mk _) hdrop

/-- What a factory makes without looking at the number is added with the next number. -/
theorem adds_append {make : SymbolId → LocalSymbol × SymbolId} {x : LocalSymbol}
    (h : ∀ next, make next = (x.withId next, next + 1)) :
    Adds (Search.append make) [x] (.ok ()) := by
  rintro ⟨found, state⟩
  simp [Search.append, Progress.ending, Progress.adding, number, h]

/-- What the run adds has the property, and what and how it ends does not depend on the
progress. -/
def AddsOnly (Q : LocalSymbol → Prop) (x : Run SymbolId LocalSymbol Unit) : Prop :=
  ∃ xs r, Adds x xs r ∧ ∀ symbol ∈ xs, Q symbol

namespace AddsOnly

variable {Q : LocalSymbol → Prop} {x y : Run SymbolId LocalSymbol Unit}

theorem nothing : AddsOnly Q (pure ()) := ⟨[], .ok (), adds_pure, nofun⟩

theorem mono {P : LocalSymbol → Prop} (h : AddsOnly P x) (hPQ : ∀ symbol, P symbol → Q symbol) :
    AddsOnly Q x := by
  obtain ⟨xs, r, hx, hP⟩ := h
  exact ⟨xs, r, hx, fun symbol hs => hPQ symbol (hP symbol hs)⟩

/-- Two runs that add symbols of a kind add such symbols together. -/
theorem bind (hx : AddsOnly Q x) (hy : AddsOnly Q y) : AddsOnly Q (do x; y) := by
  obtain ⟨xs, r, hx, hxs⟩ := hx
  obtain ⟨ys, r', hy, hys⟩ := hy
  cases r with
  | error e => exact ⟨xs, .error e, hx.bind_error, hxs⟩
  | ok u =>
      refine ⟨xs ++ ys, r', hx.bind hy, fun symbol hs => ?_⟩
      rcases List.mem_append.mp hs with hs | hs
      · exact hxs symbol hs
      · exact hys symbol hs

theorem forM {α : Type} {f : α → Run SymbolId LocalSymbol Unit} : ∀ {as : List α},
    (∀ a ∈ as, AddsOnly Q (f a)) → AddsOnly Q (as.forM f)
  | [], _ => nothing
  | a :: _, h => (h a List.mem_cons_self).bind (forM fun b hb => h b (List.mem_cons_of_mem a hb))

end AddsOnly

end Run

/-! ### Searches for local variables -/

/-- The scope around it that is told for the variables in the arguments of a container: none for
those of a call to another constructor, which are searched one expression after the other. -/
def Container.told : Container → Option ScopeId → Option ScopeId
  | constructorInitializer _, _ => none
  | statements _, parent | switchSection _, parent => parent

/-- The symbol for a call to the factory of local symbols, before it has its number. -/
def Call.symbol (names : Names) (call : Call) : LocalSymbol :=
  (call.replay (LocalSymbol.factory names) 0).1

/-- The factory of local symbols numbers what the call asks for, and counts on. -/
theorem Call.replay_factory (names : Names) (call : Call) (next : SymbolId) :
    call.replay (LocalSymbol.factory names) next = ((call.symbol names).withId next, next + 1) := by
  cases call <;> rfl

/-- What the factory of local symbols makes of a list of calls. -/
theorem Progress.after_factory (names : Names) : ∀ (p : Progress SymbolId LocalSymbol)
    (calls : List Call),
    p.after (LocalSymbol.factory names) calls = p.adding (calls.map (Call.symbol names))
  | p, [] => by rw [after_nil, List.map_nil, adding_nil]
  | p, call :: calls => by
      have hone : p.after (LocalSymbol.factory names) [call] = p.adding [call.symbol names] := by
        simp [after, adding, SymbolFactory.answers, Call.replay_factory, number]
      rw [after_cons, hone, after_factory names _ calls, ← adding_append]
      rfl

namespace Search

open Run (Adds AddsOnly)

variable {s : Locals} {names : Names} {Q : LocalSymbol → Prop}

/-- A declaration adds its variable. -/
theorem adds_regular (names : Names) (scope : ScopeId) (type : Node) (i : Identifier) :
    Adds (append (LocalSymbol.regular names scope type i))
      [(LocalSymbol.regular names scope type i 0).1] (.ok ()) :=
  Run.adds_append fun _ => rfl

/-- A report adds the symbol that is asked for, or fails and adds nothing. -/
theorem adds_report (hf : s.factory = LocalSymbol.factory names) (n : Node) :
    Adds (s.report n)
      (match s.request n with
        | .ok call? => call?.toList.map (Call.symbol names)
        | .error _ => [])
      ((s.request n).map fun _ => ()) := by
  intro p
  rw [run_report]
  cases s.request n with
  | error e => exact congrArg (EStateM.Result.error e) p.adding_nil.symm
  | ok call? =>
      refine congrArg (EStateM.Result.ok ()) ?_
      rw [hf]
      exact p.after_factory names call?.toList

/-- What holds of all that a report can ask for holds of what it adds. -/
theorem addsOnly_report (hf : s.factory = LocalSymbol.factory names) {n : Node}
    (h : ∀ call, s.request n = .ok (some call) → Q (call.symbol names)) :
    AddsOnly Q (s.report n) := by
  refine ⟨_, _, adds_report hf n, ?_⟩
  intro symbol hs
  cases hr : s.request n with
  | error e => simp [hr] at hs
  | ok call? =>
      cases call? with
      | none => simp [hr] at hs
      | some call =>
          simp only [hr, Option.toList_some, List.map_cons, List.map_nil,
            List.mem_singleton] at hs
          exact hs ▸ h call hr

mutual

/-- What the reports add only, the search adds only. -/
theorem addsOnly_visit (h : ∀ n, AddsOnly Q (s.report n)) (n : Node) : AddsOnly Q (s.visit n) := by
  rw [visit_eq]
  exact (addsOnly_visitAll h n.searched).bind (h n)
termination_by 2 * n.size
decreasing_by have := Node.sizeAll_searched_lt n; omega

theorem addsOnly_visitAll (h : ∀ n, AddsOnly Q (s.report n)) (ns : List Node) :
    AddsOnly Q (s.visitAll ns) := by
  match ns with
  | [] =>
      rw [visitAll_nil]
      exact .nothing
  | n :: rest =>
      rw [visitAll_cons]
      exact (addsOnly_visit h n).bind (addsOnly_visitAll h rest)
termination_by 2 * Node.sizeAll ns + 1
decreasing_by all_goals have := Node.size_pos n; simp only [Node.sizeAll]; omega

end

/-! ### The search of a container -/

/-- What holds of the variable of a declarator, and of what its initial value declares, holds of
what is collected from it. -/
theorem addsOnly_collectDeclarator {type declarator : Node}
    (hi : ∀ i, declarator.identifier? = some i → Q (LocalSymbol.regular names s.scope type i 0).1)
    (hv : AddsOnly Q (s.visit declarator)) :
    AddsOnly Q (s.collectDeclarator names type declarator) := by
  unfold collectDeclarator
  cases h : declarator.identifier? with
  | none => simpa using hv
  | some i =>
      refine .bind ⟨_, _, adds_regular names s.scope type i, ?_⟩ hv
      intro symbol hs
      exact List.mem_singleton.mp hs ▸ hi i h

/-- A statement is collected declarator by declarator, or it is searched, or it is passed over. -/
theorem addsOnly_collectStatement {statement : Node}
    (hd : ∀ declaration type declarators, statement.kind = .localDeclarationStatement →
      statement.children = [declaration] → declaration.children = type :: declarators →
        ∀ d ∈ declarators, AddsOnly Q (s.collectDeclarator names type d))
    (hv : statement.kind.hostsVariables = true → AddsOnly Q (s.visit statement)) :
    AddsOnly Q (s.collectStatement names statement) := by
  unfold collectStatement
  split
  · next hk hc => exact .forM (hd _ _ _ hk hc rfl)
  · split
    · next hh => exact hv hh
    · exact .nothing

/-- What the reports and the variables of declaration statements add only, the search of a
container adds only. -/
theorem addsOnly_collect {container : Container}
    (hi : ∀ type i, Q (LocalSymbol.regular names s.scope type i 0).1)
    (hr : ∀ n, AddsOnly Q (report { s with enclosing := container.told s.enclosing } n)) :
    AddsOnly Q (s.collect names container) := by
  have statement (hr : ∀ n, AddsOnly Q (s.report n)) (n : Node) :
      AddsOnly Q (s.collectStatement names n) :=
    addsOnly_collectStatement
      (fun _ type _ _ _ _ d _ =>
        addsOnly_collectDeclarator (fun i _ => hi type i) (addsOnly_visit hr d))
      fun _ => addsOnly_visit hr n
  cases container with
  | statements statements => exact .forM fun n _ => statement hr n
  | switchSection node => exact (addsOnly_visit hr node).bind (.forM fun n _ => statement hr n)
  | constructorInitializer node => exact addsOnly_visitAll hr _

end Search

end InlineLocals
