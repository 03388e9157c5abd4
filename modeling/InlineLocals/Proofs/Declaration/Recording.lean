import InlineLocals.Proofs.Declaration.Lockstep
import InlineLocals.Proofs.Scope.Adding

/-!
# Declaration — Recording

A search does not look at the symbols that its factory makes.  The calls that it makes and the way
it ends are those of the search with `Call.recorder`, which writes its calls down and does nothing
else; what any other factory comes to is that these calls are replayed to it, one after the other
(`SymbolFactory.answers`).

`Run.Asks` says what a run asks of its factory, whatever the progress.  Two searches that differ in
the factory ask for the same in lock step (`Search.askAlike_enter`).  To tell which calls an
arbitrary factory has received, it is given a log beside its state (`SymbolFactory.logged`), and the
log is compared with what the recorder wrote down (`Search.enter_recorded`).
-/

namespace InlineLocals

variable {σ τ S T : Type}

/-! ### Factories that write down their calls -/

namespace SymbolFactory

/-- The factory, with a log of the calls it has received beside its state. -/
def logged (factory : SymbolFactory σ S) : SymbolFactory (σ × List Call) S where
  patternVariable scope type name position state :=
    match factory.patternVariable scope type name position state.1 with
    | (symbol, next) => (symbol, next, state.2 ++ [.pattern scope type name position])
  outVariable scope enclosing type name context state :=
    match factory.outVariable scope enclosing type name context state.1 with
    | (symbol, next) => (symbol, next, state.2 ++ [.out scope enclosing type name context])

theorem replay_logged (factory : SymbolFactory σ S) (call : Call) (state : σ) (log : List Call) :
    call.replay factory.logged (state, log) =
      ((call.replay factory state).1, (call.replay factory state).2, log ++ [call]) := by
  cases call <;> rfl

/-- Every call is answered once. -/
theorem length_answers (factory : SymbolFactory σ S) : ∀ (calls : List Call) (state : σ),
    (factory.answers calls state).1.length = calls.length
  | [], _ => rfl
  | call :: calls, state => by
      rw [answers, List.length_cons, List.length_cons, length_answers factory calls]

theorem answers_recorder : ∀ calls : List Call, Call.recorder.answers calls () = (calls, ())
  | [] => rfl
  | call :: calls => by
      have hreplay : call.replay Call.recorder () = (call, ()) := by cases call <;> rfl
      simp only [answers, hreplay, answers_recorder calls]

/-- The log takes nothing away from the factory. -/
theorem answers_logged (factory : SymbolFactory σ S) :
    ∀ (calls : List Call) (state : σ) (log : List Call),
      factory.logged.answers calls (state, log) = ((factory.answers calls state).1,
        (factory.answers calls state).2, log ++ calls)
  | [], state, log => by simp [answers]
  | call :: calls, state, log => by
      simp only [answers, replay_logged, answers_logged factory calls, List.append_assoc,
        List.singleton_append]

end SymbolFactory

/-! ### What a run asks for -/

namespace Run

/-- Whatever the progress, the run makes the calls of the list, appends the answers and ends so. -/
def Asks (factory : SymbolFactory σ S) (x : Run σ S Unit) (calls : List Call)
    (r : Except ContextError Unit) : Prop :=
  ∀ p : Progress σ S, x.run p = (p.after factory calls).ending r

section

variable {factory : SymbolFactory σ S} {x y : Run σ S Unit} {xs ys : List Call}
  {r : Except ContextError Unit}

theorem asks_nothing : Asks factory (pure ()) [] (.ok ()) := fun p => by
  rw [Progress.after_nil]
  rfl

theorem Asks.bind (hx : Asks factory x xs (.ok ())) (hy : Asks factory y ys r) :
    Asks factory (do x; y) (xs ++ ys) r := fun p => by
  rw [EStateM.run_bind, hx p]
  simp only [Progress.ending, hy (p.after factory xs), Progress.after_append]

/-- After a failure nothing is asked for. -/
theorem Asks.bind_error {e : ContextError} (hx : Asks factory x xs (.error e)) :
    Asks factory (do x; y) xs (.error e) := fun p => by
  rw [EStateM.run_bind, hx p]
  rfl

/-- What the recorder writes down is what it was asked for. -/
theorem Asks.run_recorder {x : Run Unit Call Unit} (h : Asks Call.recorder x xs r) :
    x.run ⟨#[], ()⟩ = Progress.ending ⟨xs.toArray, ()⟩ r := by
  rw [h, Progress.after, SymbolFactory.answers_recorder]
  simp

/-- A run asks the recorder for one thing only. -/
theorem Asks.unique {x : Run Unit Call Unit} {r' : Except ContextError Unit}
    (h : Asks Call.recorder x xs r) (h' : Asks Call.recorder x ys r') : xs = ys ∧ r = r' := by
  obtain ⟨hr, hp⟩ := Progress.ending_inj (h.run_recorder.symm.trans h'.run_recorder)
  exact ⟨congrArg (·.found.toList) hp, hr⟩

end

/-- The runs make the same calls to their factories, and end alike. -/
def AskAlike (factory : SymbolFactory σ S) (factory' : SymbolFactory τ T) (x : Run σ S Unit)
    (x' : Run τ T Unit) : Prop :=
  ∃ calls r, Asks factory x calls r ∧ Asks factory' x' calls r

theorem linked_askAlike (factory : SymbolFactory σ S) (factory' : SymbolFactory τ T) :
    Linked (AskAlike factory factory') where
  nothing := ⟨[], .ok (), asks_nothing, asks_nothing⟩
  bind := by
    rintro x y x' y' ⟨xs, r, hx, hx'⟩ ⟨ys, q, hy, hy'⟩
    cases r with
    | ok u => exact ⟨xs ++ ys, q, hx.bind hy, hx'.bind hy'⟩
    | error e => exact ⟨xs, .error e, hx.bind_error, hx'.bind_error⟩

end Run

/-! ### Searches with different factories -/

namespace Search

open Run (Asks AskAlike)

/-- The search with another factory. -/
def withFactory (s : Search σ S) (factory : SymbolFactory τ T) : Search τ T :=
  { tree := s.tree, factory, scope := s.scope, enclosing := s.enclosing }

theorem asks_report (s : Search σ S) (n : Node) :
    Asks s.factory (s.report n)
      (match s.request n with
        | .ok call? => call?.toList
        | .error _ => [])
      ((s.request n).map fun _ => ()) := by
  intro p
  rw [run_report]
  cases s.request n with
  | ok call? => rfl
  | error e => exact congrArg (EStateM.Result.error e) (p.after_nil s.factory).symm

/-- What a report asks for is settled by the tree and the scopes. -/
theorem askAlike_report (s : Search σ S) (factory : SymbolFactory τ T) (n : Node) :
    AskAlike s.factory factory (s.report n) ((s.withFactory factory).report n) :=
  ⟨_, _, s.asks_report n, (s.withFactory factory).asks_report n⟩

theorem askAlike_enter (s : Search σ S) (factory : SymbolFactory τ T) (entry : Entry) :
    AskAlike s.factory factory (s.enter entry) ((s.withFactory factory).enter entry) :=
  (Run.linked_askAlike s.factory factory).enter (s.askAlike_report factory)
    (askAlike_report { s with enclosing := none } factory) entry

/-- **A search replays a recording.**  The recorder writes some calls down, and the search with it
ends in some way.  With any factory, and from any progress, the search makes these calls and no
others, as the log of the factory tells, and ends in this way; it has appended one answer for each
call, in order, and the factory is in the state that the calls lead to. -/
theorem enter_recorded (s : Search σ S) (entry : Entry) :
    ∃ (calls : List Call) (r : Except ContextError Unit),
      ((s.withFactory Call.recorder).enter entry).run ⟨#[], ()⟩ =
        Progress.ending ⟨calls.toArray, ()⟩ r ∧
      ∀ (p : Progress σ S) (log : List Call),
        let answers := s.factory.answers calls p.state
        (s.enter entry).run p = Progress.ending ⟨p.found ++ answers.1, answers.2⟩ r ∧
        ((s.withFactory s.factory.logged).enter entry).run ⟨p.found, p.state, log⟩ =
          Progress.ending ⟨p.found ++ answers.1, answers.2, log ++ calls⟩ r ∧
        answers.1.length = calls.length := by
  obtain ⟨calls, r, hs, hrecorder⟩ := s.askAlike_enter Call.recorder entry
  obtain ⟨others, r', hrecorder', hlogged⟩ :=
    (s.withFactory Call.recorder).askAlike_enter s.factory.logged entry
  obtain ⟨rfl, rfl⟩ := hrecorder.unique hrecorder'
  refine ⟨calls, r, hrecorder.run_recorder, fun p log => ⟨hs p, ?_, ?_⟩⟩
  · have hrun := hlogged ⟨p.found, p.state, log⟩
    rwa [Progress.after, SymbolFactory.answers_logged] at hrun
  · exact s.factory.length_answers calls p.state

end Search

end InlineLocals
