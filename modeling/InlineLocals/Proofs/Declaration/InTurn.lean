import InlineLocals.Declaration.Search

/-!
# Declaration — In turn

Two ways to search several expressions.  They are handed to one search as a list, or a search is
begun for each of them, with what the one before it has left and with no scope around, until one
fails.  `Search.InTurn` tells what the second way comes to, search by search, and
`Search.findInList_inTurn` says that the first way comes to the same.  So a list may be cut anywhere
and handed over in two parts, and a list that fails does so at one of its expressions, after all of
those before it.
-/

namespace InlineLocals

namespace Search

variable {σ S : Type}

/-- The expressions of the list are searched one by one, each from the progress that the one before
it has left; the first that fails is the last. -/
inductive InTurn (s : Search σ S) : List Node → Progress σ S →
    EStateM.Result ContextError (Progress σ S) Unit → Prop where
  | done (p : Progress σ S) : InTurn s [] p (.ok () p)
  | next {e : Node} {es : List Node} {p q : Progress σ S}
      {r : EStateM.Result ContextError (Progress σ S) Unit}
      (h : (s.find (some e)).run p = .ok () q) (rest : InTurn s es q r) : InTurn s (e :: es) p r
  | fails {e : Node} {es : List Node} {p q : Progress σ S} {err : ContextError}
      (h : (s.find (some e)).run p = .error err q) : InTurn s (e :: es) p (.error err q)

/-- The search of a list in two parts goes on from where the first part ended, unless it failed. -/
theorem run_visitAll_append (s : Search σ S) (xs ys : List Node) (p : Progress σ S) :
    (s.visitAll (xs ++ ys)).run p =
      match (s.visitAll xs).run p with
      | .ok () q => (s.visitAll ys).run q
      | .error err q => .error err q := by
  rw [visitAll_append, EStateM.run_bind]
  cases (s.visitAll xs).run p <;> rfl

/-- The rest of a list is searched after the first expression, unless that fails. -/
theorem run_visitAll_cons (s : Search σ S) (e : Node) (es : List Node) (p : Progress σ S) :
    (s.visitAll (e :: es)).run p =
      match (s.find (some e)).run p with
      | .ok () q => (s.visitAll es).run q
      | .error err q => .error err q := by
  rw [visitAll_cons, EStateM.run_bind]
  change _ = match (s.visit e).run p with | .ok () q => _ | .error err q => _
  cases (s.visit e).run p <;> rfl

/-- The loop ends as the expressions do in turn. -/
theorem InTurn.run_visitAll {s : Search σ S} {es : List Node} {p : Progress σ S}
    {r : EStateM.Result ContextError (Progress σ S) Unit} (h : s.InTurn es p r) :
    (s.visitAll es).run p = r := by
  induction h with
  | done p => rw [visitAll_nil]; rfl
  | next h _ ih => rw [run_visitAll_cons, h]; exact ih
  | fails h => rw [run_visitAll_cons, h]

/-- And there is no other way for it to end. -/
theorem inTurn_run_visitAll (s : Search σ S) : ∀ (es : List Node) (p : Progress σ S),
    s.InTurn es p ((s.visitAll es).run p)
  | [], p => by
      rw [visitAll_nil]
      exact .done p
  | e :: es, p => by
      rw [run_visitAll_cons]
      cases h : (s.find (some e)).run p with
      | ok u q => exact .next h (inTurn_run_visitAll s es q)
      | error err q => exact .fails h

/-- What fails in turn fails at one expression, and those before it succeed. -/
theorem InTurn.exists_of_error {s : Search σ S} {es : List Node} {p q : Progress σ S}
    {err : ContextError} (h : s.InTurn es p (.error err q)) :
    ∃ before e after m, es = before ++ e :: after ∧ s.InTurn before p (.ok () m) ∧
      (s.find (some e)).run m = .error err q := by
  generalize hr : EStateM.Result.error err q = r at h
  induction h with
  | done p => cases hr
  | next h _ ih =>
      obtain ⟨before, e, after, m, rfl, hbefore, he⟩ := ih hr
      exact ⟨_ :: before, e, after, m, rfl, .next h hbefore, he⟩
  | fails h =>
      cases hr
      exact ⟨[], _, _, _, rfl, .done _, h⟩

/-- **Several expressions are searched in turn.**  The search of a list comes to what the searches
of its expressions come to, one after the other, with no scope around and up to the first that
fails.  It may be cut into two searches anywhere, and the empty list changes nothing. -/
theorem findInList_inTurn (s : Search σ S) :
    let alone : Search σ S := { s with enclosing := none }
    (∀ expressions p r,
      (s.findInList expressions).run p = r ↔ alone.InTurn expressions p r) ∧
    (∀ expressions p err q, (s.findInList expressions).run p = .error err q ↔
      ∃ before e after m, expressions = before ++ e :: after ∧
        (s.findInList before).run p = .ok () m ∧ (alone.find (some e)).run m = .error err q) ∧
    (∀ xs ys p, (s.findInList (xs ++ ys)).run p =
      match (s.findInList xs).run p with
      | .ok () q => (s.findInList ys).run q
      | .error err q => .error err q) ∧
    ∀ p, (s.findInList []).run p = .ok () p := by
  intro alone
  have inTurn_iff (es : List Node) (p) (r) :
      (s.findInList es).run p = r ↔ alone.InTurn es p r := by
    refine ⟨?_, InTurn.run_visitAll⟩
    rintro rfl
    exact alone.inTurn_run_visitAll es p
  refine ⟨inTurn_iff, fun es p err q => ⟨fun h => ?_, ?_⟩, alone.run_visitAll_append,
    fun p => (inTurn_iff [] p _).mpr (.done p)⟩
  · obtain ⟨before, e, after, m, hsplit, hbefore, he⟩ :=
      ((inTurn_iff es p _).mp h).exists_of_error
    exact ⟨before, e, after, m, hsplit, (inTurn_iff before p _).mpr hbefore, he⟩
  -- Cut the list before `e`: from there on the search fails at once.
  · rintro ⟨before, e, after, m, rfl, hbefore, he⟩
    have hcut := alone.run_visitAll_append before (e :: after) p
    rw [show (alone.visitAll before).run p = .ok () m from hbefore] at hcut
    exact hcut.trans (InTurn.fails he).run_visitAll

end Search

end InlineLocals
