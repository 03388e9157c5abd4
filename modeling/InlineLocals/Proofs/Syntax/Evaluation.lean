import InlineLocals.Proofs.Syntax.Building

/-!
# Syntax — Evaluation

What the evaluation of forms keeps.  `Build.Ends` says of a run how it ends, well or with an error;
the errors that are let through stay the same throughout, so runs are put together by
`Build.Ends.bind` alone.

A form holds other forms (`Form.subforms`), and what is asked of a form is often asked of all of
these.  What a form applies, production after production, is read off the form as well
(`Form.productions`), so a property may speak of all that has been applied so far.  A property of
this history, of the workshop and of the pieces in hand, in the order in which they came there, is
kept by every evaluation when the single steps keep it (`Form.Records`), by one induction on the
forms (`Form.Records.eval`).  Most properties do not look at the history (`Form.Keeps`).

A piece is built, put on the shelf, taken and built into another one in whatever order the forms
say.  A `Chronicle` is a property of the history, of the workshop and of the pieces there are,
wherever they lie and in whatever order, that survives each single production; `Chronicle.shelve`
carries it through every list of forms.  A `Law` is one that does not look at the history.  It may
restrict the productions, and it says which errors are left; `Law.ofForms` carries it to every
workshop that a list of forms leads to.  An `Invariant` is a law that does neither.
-/

namespace InlineLocals

/-! ### Ends of runs -/

namespace Build

variable {α β : Type} {x : Build α} {w w' : Workshop} {Q R : α → Workshop → Prop}
  {E : BuildError → Prop}

/-- However the run ends: `Q` holds of what it yields and of the workshop that it leaves, or `E`
holds of its error. -/
def Ends (x : Build α) (w : Workshop) (Q : α → Workshop → Prop) (E : BuildError → Prop) : Prop :=
  match x.run w with
  | .ok (a, w') => Q a w'
  | .error e => E e

/-- Both ends apart. -/
theorem ends_iff : Ends x w Q E ↔
    (∀ a w', x.run w = .ok (a, w') → Q a w') ∧ ∀ e, x.run w = .error e → E e := by
  unfold Ends
  cases x.run w with
  | ok r => exact ⟨fun h => ⟨fun _ _ hr => by cases hr; exact h, nofun⟩, fun h => h.1 _ _ rfl⟩
  | error e => exact ⟨fun h => ⟨nofun, fun _ hr => by cases hr; exact h⟩, fun h => h.2 _ rfl⟩

theorem ends_pure {a : α} (h : Q a w) : Ends (pure a) w Q E := h

theorem ends_throw {e : BuildError} (h : E e) : Ends (throw e : Build α) w Q E := h

theorem Ends.of_ok {a : α} (h : Ends x w Q E) (hx : x.run w = .ok (a, w')) : Q a w' :=
  (ends_iff.mp h).1 a w' hx

theorem Ends.of_error {e : BuildError} (h : Ends x w Q E) (hx : x.run w = .error e) : E e :=
  (ends_iff.mp h).2 e hx

theorem Ends.mono (h : Ends x w R E) (hQ : ∀ a v, R a v → Q a v) : Ends x w Q E :=
  ends_iff.mpr ⟨fun a v hx => hQ a v (h.of_ok hx), fun _ => h.of_error⟩

/-- **Composition.**  What the first action ends with is what the second one starts from; the errors
are the same for both. -/
theorem Ends.bind {f : α → Build β} {Q : β → Workshop → Prop} (hx : Ends x w R E)
    (hf : ∀ a v, R a v → Ends (f a) v Q E) : Ends (x >>= f) w Q E := by
  unfold Ends at hx ⊢
  rw [StateT.run_bind]
  cases hr : x.run w with
  | error e => rw [hr] at hx; exact hx
  | ok r => rw [hr] at hx; exact hf r.1 r.2 hx

end Build

/-! ### Forms in forms -/

namespace Form

mutual

/-- The form and the forms of which it is made. -/
def subforms : Form → List Form
  | take place => [take place]
  | make production groups => make production groups :: subformsGroups groups
  | chain operator operands => chain operator operands :: subformsAll operands
  | nest times wrapper inner => nest times wrapper inner :: inner.subforms

/-- The forms of which those of a list are made. -/
def subformsAll : List Form → List Form
  | [] => []
  | form :: forms => form.subforms ++ subformsAll forms

/-- The forms of which those of all groups are made. -/
def subformsGroups : List (List Form) → List Form
  | [] => []
  | group :: groups => subformsAll group ++ subformsGroups groups

end

/-- A form is one of its parts. -/
theorem mem_subforms_self (form : Form) : form ∈ form.subforms := by
  cases form <;> simp [subforms]

end Form

/-! ### What a form applies -/

/-- The productions that a wrapping applies. -/
def Wrapper.productions : Wrapper → List Production
  | parenthesized => [.parenthesized]
  | negation => [.prefixUnary .exclamationToken]
  | member => [.memberAccess "m"]
  | call => [.identifierName "f", .argument, .invocation]
  | rightOperand => [.identifierName "a", .binary .plusToken]
  | lambda => [.parameter "x", .simpleLambda]
  | arrayType => [.arrayType 1]
  | nullableType => [.nullableType]
  | recursivePattern => [.subpattern none, .recursivePattern]
  | block => [.block]
  | elseBranch => [.identifierName "c", .emptyStatement, .ifStatement]
  | continuation => [.queryContinuation "g", .identifierName "s", .selectClause, .queryBody]

namespace Form

mutual

/-- The productions that a form applies, in order. -/
def productions : Form → List Production
  | take _ => []
  | make production groups => productionsGroups groups ++ [production]
  | chain operator operands => productionsChain operator false operands
  | nest times wrapper inner =>
    inner.productions ++ (List.replicate times wrapper.productions).flatten

/-- The productions that the forms of a list apply, in order. -/
def productionsAll : List Form → List Production
  | [] => []
  | form :: forms => form.productions ++ productionsAll forms

/-- The productions that the forms of all groups apply, in order. -/
def productionsGroups : List (List Form) → List Production
  | [] => []
  | group :: groups => productionsAll group ++ productionsGroups groups

/-- The productions of a chain of operands; when there is something of the chain already, the
operator comes after every operand. -/
def productionsChain (operator : Kind) : Bool → List Form → List Production
  | _, [] => []
  | false, form :: forms => form.productions ++ productionsChain operator true forms
  | true, form :: forms =>
    form.productions ++ [.binary operator] ++ productionsChain operator true forms

end

/-- A property of the productions applied so far, of the workshop and of the pieces in hand that
every step keeps.  A piece that is built or taken comes last in the hand, after those that it was
not made of.  `ok` says which forms there may be, and `E` which errors. -/
structure Records (ok : Form → Prop) (J : List Production → Workshop → List Piece → Prop)
    (E : BuildError → Prop) : Prop where
  take {place : Nat} {past : List Production} {hand : List Piece} {w : Workshop} :
    ok (.take place) → J past w hand →
    Build.Ends (Build.take place) w (fun piece w' => J past w' (hand ++ [piece])) E
  make {p : Production} {forms : List (List Form)} {groups : List (List Piece)}
    {past : List Production} {hand : List Piece} {w : Workshop} :
    ok (.make p forms) → J past w (hand ++ groups.flatten) →
    Build.Ends (p.build groups) w (fun piece w' => J (past ++ [p]) w' (hand ++ [piece])) E
  join {operator : Kind} {left right : Piece} {past : List Production} {hand : List Piece}
    {w : Workshop} : J past w (hand ++ [left, right]) →
    Build.Ends ((Production.binary operator).build [[left], [right]]) w
      (fun piece w' => J (past ++ [.binary operator]) w' (hand ++ [piece])) E
  wrap {times : Nat} {wrapper : Wrapper} {inner : Form} {v : Piece} {past : List Production}
    {hand : List Piece} {w : Workshop} :
    ok (.nest times wrapper inner) → J past w (hand ++ [v]) →
    Build.Ends (wrapper.wrap v) w
      (fun piece w' => J (past ++ wrapper.productions) w' (hand ++ [piece])) E
  emptyChain : E .emptyChain

namespace Records

open Build (Ends ends_pure ends_throw)

variable {ok : Form → Prop} {J : List Production → Workshop → List Piece → Prop}
  {E : BuildError → Prop}

/-- Wrapping a piece again and again. -/
theorem wrapTimes (records : Records ok J E) {times : Nat} {wrapper : Wrapper} {inner : Form}
    (hok : ok (.nest times wrapper inner)) {hand : List Piece} :
    ∀ (n : Nat) {past : List Production} {v : Piece} {w : Workshop}, J past w (hand ++ [v]) →
      Ends (wrapper.wrapTimes n v) w (fun piece w' =>
        J (past ++ (List.replicate n wrapper.productions).flatten) w' (hand ++ [piece])) E
  | 0, _, _, _, h => ends_pure (by simpa using h)
  | n + 1, _, _, _, h => by
      rw [List.replicate_succ, List.flatten_cons, ← List.append_assoc]
      exact (records.wrap hok h).bind fun _ _ h => wrapTimes records hok n h

mutual

/-- **What the steps keep, the evaluation of a form keeps**, and the history grows by what the form
applies. -/
theorem eval (records : Records ok J E) : ∀ {form : Form} (past : List Production)
    (hand : List Piece) {w : Workshop}, (∀ f ∈ form.subforms, ok f) → J past w hand →
      Ends form.eval w (fun piece w' => J (past ++ form.productions) w' (hand ++ [piece])) E
  | .take place, _, _, _, hok, h => by
      rw [Form.eval, productions, List.append_nil]
      exact records.take (hok _ (mem_subforms_self _)) h
  | .make p groups, _, _, _, hok, h => by
      rw [Form.eval, productions, ← List.append_assoc]
      rw [subforms, List.forall_mem_cons] at hok
      exact (evalGroups records hok.2 h).bind fun _ _ h => records.make hok.1 h
  | .chain operator operands, _, _, _, hok, h => by
      rw [Form.eval, productions]
      rw [subforms, List.forall_mem_cons] at hok
      exact evalChain records none hok.2 (by simpa using h)
  | .nest times wrapper inner, _, _, _, hok, h => by
      rw [Form.eval, productions, ← List.append_assoc]
      rw [subforms, List.forall_mem_cons] at hok
      exact (eval records _ _ hok.2 h).bind fun _ _ h => records.wrapTimes hok.1 times h

/-- Forms from left to right: each piece comes last in the hand. -/
theorem evalAll (records : Records ok J E) : ∀ {forms : List Form} {past : List Production}
    {hand : List Piece} {w : Workshop}, (∀ f ∈ subformsAll forms, ok f) → J past w hand →
      Ends (Form.evalAll forms) w
        (fun pieces w' => J (past ++ productionsAll forms) w' (hand ++ pieces)) E
  | [], _, _, _, _, h => by
      rw [Form.evalAll]
      exact ends_pure (by simpa [productionsAll] using h)
  | form :: forms, _, _, _, hok, h => by
      rw [Form.evalAll, productionsAll, ← List.append_assoc]
      rw [subformsAll, List.forall_mem_append] at hok
      refine (eval records _ _ hok.1 h).bind fun piece v h => ?_
      refine (evalAll records hok.2 h).bind fun pieces v h => ?_
      exact ends_pure (by simpa using h)

/-- Groups of forms from left to right. -/
theorem evalGroups (records : Records ok J E) : ∀ {groups : List (List Form)}
    {past : List Production} {hand : List Piece} {w : Workshop},
    (∀ f ∈ subformsGroups groups, ok f) → J past w hand →
      Ends (Form.evalGroups groups) w
        (fun pieces w' => J (past ++ productionsGroups groups) w' (hand ++ pieces.flatten)) E
  | [], _, _, _, _, h => by
      rw [Form.evalGroups]
      exact ends_pure (by simpa [productionsGroups] using h)
  | group :: groups, _, _, _, hok, h => by
      rw [Form.evalGroups, productionsGroups, ← List.append_assoc]
      rw [subformsGroups, List.forall_mem_append] at hok
      refine (evalAll records hok.1 h).bind fun first v h => ?_
      refine (evalGroups records hok.2 h).bind fun rest v h => ?_
      exact ends_pure (by simpa using h)

/-- A chain: the left operand is joined with the next one as soon as that is built. -/
theorem evalChain (records : Records ok J E) {operator : Kind} :
    ∀ (left : Option Piece) {forms : List Form} {past : List Production} {hand : List Piece}
    {w : Workshop}, (∀ f ∈ subformsAll forms, ok f) → J past w (hand ++ left.toList) →
      Ends (Form.evalChain operator left forms) w (fun piece w' =>
        J (past ++ productionsChain operator left.isSome forms) w' (hand ++ [piece])) E
  | none, [], _, _, _, _, _ => by
      rw [Form.evalChain]
      exact ends_throw records.emptyChain
  | some left, [], _, _, _, _, h => by
      rw [Form.evalChain]
      exact ends_pure (by simpa [productionsChain] using h)
  | none, form :: forms, _, _, _, hok, h => by
      rw [Form.evalChain, Option.isSome_none, productionsChain, ← List.append_assoc]
      rw [subformsAll, List.forall_mem_append] at hok
      refine (eval records _ _ hok.1 h).bind fun first v h => ?_
      exact evalChain records (some first) hok.2 (by simpa using h)
  | some left, form :: forms, past, hand, _, hok, h => by
      rw [Form.evalChain, Option.isSome_some, productionsChain, ← List.append_assoc,
        ← List.append_assoc]
      rw [subformsAll, List.forall_mem_append] at hok
      refine (eval records _ _ hok.1 h).bind fun right v h => ?_
      have hboth : J (past ++ form.productions) v (hand ++ [left, right]) := by simpa using h
      -- The left operand is in hand just before the right one, as the production takes them.
      refine (records.join hboth).bind fun joined v h => ?_
      exact evalChain records (some joined) hok.2 h

end

end Records

/-- A property of the workshop and of the pieces in hand that every step keeps.  A piece that is
built or taken comes last in the hand, after those that it was not made of.  `ok` says which forms
there may be, and `E` which errors. -/
structure Keeps (ok : Form → Prop) (J : Workshop → List Piece → Prop) (E : BuildError → Prop) :
    Prop where
  take {place : Nat} {hand : List Piece} {w : Workshop} : ok (.take place) → J w hand →
    Build.Ends (Build.take place) w (fun piece w' => J w' (hand ++ [piece])) E
  make {p : Production} {forms : List (List Form)} {groups : List (List Piece)}
    {hand : List Piece} {w : Workshop} : ok (.make p forms) → J w (hand ++ groups.flatten) →
    Build.Ends (p.build groups) w (fun piece w' => J w' (hand ++ [piece])) E
  join {operator : Kind} {left right : Piece} {hand : List Piece} {w : Workshop} :
    J w (hand ++ [left, right]) →
    Build.Ends ((Production.binary operator).build [[left], [right]]) w
      (fun piece w' => J w' (hand ++ [piece])) E
  wrap {times : Nat} {wrapper : Wrapper} {inner : Form} {v : Piece} {hand : List Piece}
    {w : Workshop} : ok (.nest times wrapper inner) → J w (hand ++ [v]) →
    Build.Ends (wrapper.wrap v) w (fun piece w' => J w' (hand ++ [piece])) E
  emptyChain : E .emptyChain

namespace Keeps

variable {ok : Form → Prop} {J : Workshop → List Piece → Prop} {E : BuildError → Prop}

theorem records (keeps : Keeps ok J E) : Records ok (fun _ => J) E where
  take := keeps.take
  make := keeps.make
  join := keeps.join
  wrap := keeps.wrap
  emptyChain := keeps.emptyChain

theorem eval (keeps : Keeps ok J E) {form : Form} (hand : List Piece) {w : Workshop}
    (hok : ∀ f ∈ form.subforms, ok f) (h : J w hand) :
    Build.Ends form.eval w (fun piece w' => J w' (hand ++ [piece])) E :=
  keeps.records.eval [] hand hok h

end Keeps

end Form

/-! ### Laws of the productions -/

/-- A property of the productions applied so far, of the workshop and of the pieces there are,
wherever they lie, that every production in use keeps, and the errors that are possible then. -/
structure Chronicle (uses : Production → Prop)
    (I : List Production → Workshop → List Piece → Prop) (E : BuildError → Prop) : Prop where
  perm {past : List Production} {w : Workshop} {ps qs : List Piece} :
    ps.Perm qs → I past w ps → I past w qs
  shelf {past : List Production} {w : Workshop} {ps : List Piece}
    (shelf : Array (Option Piece)) : I past w ps → I past { w with shelf } ps
  make {p : Production} {groups : List (List Piece)} {past : List Production}
    {rest : List Piece} {w : Workshop} : uses p → I past w (groups.flatten ++ rest) →
    Build.Ends (p.build groups) w (fun piece w' => I (past ++ [p]) w' (piece :: rest)) E
  wrapped : ∀ wrapper : Wrapper, ∀ p ∈ wrapper.productions, uses p
  joined : ∀ operator, uses (.binary operator)
  absent : ∀ place, E (.absent place)
  emptyChain : E .emptyChain

namespace Chronicle

open Build (Ends ends_iff)

variable {uses : Production → Prop} {I : List Production → Workshop → List Piece → Prop}
  {E : BuildError → Prop} (chronicle : Chronicle uses I E)
include chronicle

/-! In what follows `hand` lists the pieces that are in use, and the others lie on the shelf. -/

/-- A production takes its parts out of the hand and puts its piece there. -/
theorem build {past : List Production} (hand : List Piece) {p : Production} (hp : uses p)
    {groups : List (List Piece)} {w : Workshop}
    (hI : I past w (groups.flatten ++ hand ++ w.pieces)) :
    Ends (p.build groups) w (fun piece w' => I (past ++ [p]) w' (piece :: hand ++ w'.pieces))
      E := by
  rw [List.append_assoc] at hI
  have h := chronicle.make hp hI
  refine ends_iff.mpr ⟨fun piece w' hr => ?_, fun e => h.of_error⟩
  have hs : w'.pieces = w.pieces := by
    rw [Workshop.pieces, (Production.makes_of_run hr).2.shelf_eq, Workshop.pieces]
  rw [hs]
  exact h.of_ok hr

/-- Taking moves a piece from the shelf to the hand. -/
theorem take {past : List Production} (hand : List Piece) {place : Nat} {w : Workshop}
    (hI : I past w (hand ++ w.pieces)) :
    Ends (Build.take place) w (fun piece w' => I past w' (piece :: hand ++ w'.pieces)) E := by
  refine ends_iff.mpr ⟨fun piece w' h => ?_, fun e h => ?_⟩
  · have hperm := Build.pieces_take h
    obtain ⟨-, rfl⟩ := Build.run_take_eq_ok h
    refine chronicle.shelf _ (chronicle.perm ?_ hI)
    exact (hperm.append_left hand).trans List.perm_middle
  · rw [Build.eq_absent_of_run_take h]
    exact chronicle.absent place

/-- A wrapper applies its productions around the piece. -/
theorem wrap {past : List Production} (hand : List Piece) {wrapper : Wrapper} {v : Piece}
    {w : Workshop} (hI : I past w (v :: hand ++ w.pieces)) :
    Ends (wrapper.wrap v) w
      (fun piece w' => I (past ++ wrapper.productions) w' (piece :: hand ++ w'.pieces)) E := by
  -- What a wrapper builds besides its piece is kept in hand until the last production takes it.
  have hu := chronicle.wrapped wrapper
  cases wrapper <;> simp only [Wrapper.productions, List.forall_mem_cons, List.not_mem_nil] at hu ⊢
  case parenthesized | negation | member | arrayType | nullableType | block =>
    exact chronicle.build hand hu.1 hI
  case call =>
    rw [List.append_cons past _ [_, _], List.append_cons _ _ [_]]
    refine (chronicle.build (v :: hand) hu.1 hI).bind fun callee _ hI => ?_
    refine (chronicle.build (callee :: hand) hu.2.1
      (chronicle.perm (.swap _ _ _) hI)).bind fun _ _ hI => ?_
    exact chronicle.build hand hu.2.2.1 (chronicle.perm (.swap _ _ _) hI)
  case rightOperand | lambda =>
    rw [List.append_cons past _ [_]]
    exact (chronicle.build (v :: hand) hu.1 hI).bind fun _ _ hI =>
      chronicle.build hand hu.2.1 hI
  case recursivePattern =>
    rw [List.append_cons past _ [_]]
    exact (chronicle.build hand hu.1 hI).bind fun _ _ hI => chronicle.build hand hu.2.1 hI
  case elseBranch =>
    rw [List.append_cons past _ [_, _], List.append_cons _ _ [_]]
    refine (chronicle.build (v :: hand) hu.1 hI).bind fun condition _ hI => ?_
    refine (chronicle.build (condition :: v :: hand) hu.2.1 hI).bind fun _ _ hI => ?_
    exact chronicle.build hand hu.2.2.1 (chronicle.perm (.swap _ _ _) hI)
  case continuation =>
    rw [List.append_cons past _ [_, _, _], List.append_cons _ _ [_, _], List.append_cons _ _ [_]]
    refine (chronicle.build hand hu.1 hI).bind fun next _ hI => ?_
    refine (chronicle.build (next :: hand) hu.2.1 hI).bind fun _ _ hI => ?_
    refine (chronicle.build (next :: hand) hu.2.2.1 hI).bind fun _ _ hI => ?_
    exact chronicle.build hand hu.2.2.2.1 hI

/-- It does not matter where in the hand the new piece is. -/
theorem last {past : List Production} {hand : List Piece} {x : Build Piece} {w : Workshop}
    (h : Ends x w (fun piece w' => I past w' (piece :: hand ++ w'.pieces)) E) :
    Ends x w (fun piece w' => I past w' (hand ++ [piece] ++ w'.pieces)) E :=
  h.mono fun _ _ =>
    chronicle.perm (.append_right _ (List.perm_append_singleton _ _).symm)

/-- A chronicle is kept by every evaluation of forms of the productions in use. -/
theorem records : Form.Records (fun f => ∀ p groups, f = .make p groups → uses p)
    (fun past w hand => I past w (hand ++ w.pieces)) E where
  take _ hI := chronicle.last (chronicle.take _ hI)
  make hok hI := chronicle.last (chronicle.build _ (hok _ _ rfl)
    (chronicle.perm (.append_right _ List.perm_append_comm) hI))
  join hI := chronicle.last (chronicle.build _ (chronicle.joined _)
    (chronicle.perm (.append_right _ List.perm_append_comm) hI))
  wrap _ hI := chronicle.last (chronicle.wrap _
    (chronicle.perm (.append_right _ List.perm_append_comm) hI))
  emptyChain := chronicle.emptyChain

/-- Putting moves a piece from the hand to the shelf. -/
theorem put {past : List Production} (piece : Piece) {w : Workshop}
    (hI : I past w (piece :: w.pieces)) :
    I past { w with shelf := w.shelf.push (some piece) }
      (Workshop.pieces { w with shelf := w.shelf.push (some piece) }) := by
  refine chronicle.shelf _ (chronicle.perm ?_ hI)
  rw [Build.pieces_put]
  exact (List.perm_append_singleton piece w.pieces).symm

theorem shelve : ∀ {forms : List Form} (past : List Production) {w : Workshop},
    (∀ form ∈ forms, ∀ f ∈ form.subforms, ∀ p groups, f = .make p groups → uses p) →
      I past w w.pieces → Ends (Workshop.shelve forms) w
        (fun _ w' => I (past ++ Form.productionsAll forms) w' w'.pieces) E
  | [], past, _, _, hI => by
      rw [Form.productionsAll, List.append_nil]
      exact hI
  | form :: forms, past, w, hok, hI => by
      rw [Workshop.shelve, Form.productionsAll, ← List.append_assoc]
      rw [List.forall_mem_cons] at hok
      have hform : Ends form.eval w
          (fun piece w' => I (past ++ form.productions) w' (piece :: w'.pieces)) E :=
        chronicle.records.eval past [] hok.1 hI
      exact hform.bind fun piece v hI => shelve _ hok.2 (chronicle.put piece hI)

/-- A chronicle tells of every workshop what the forms that it was built from apply. -/
theorem ofForms {forms : List Form} {w : Workshop} (h : Workshop.ofForms forms = .ok w)
    (hok : ∀ form ∈ forms, ∀ f ∈ form.subforms, ∀ p groups, f = .make p groups → uses p)
    (hI : I [] {} []) : I (Form.productionsAll forms) w w.pieces := by
  have hshelve := chronicle.shelve [] hok (w := {}) hI
  unfold Workshop.ofForms at h
  cases hs : (Workshop.shelve forms).run {} with
  | error e => rw [hs] at h; cases h
  | ok r => rw [hs] at h; cases h; exact hshelve.of_ok hs

end Chronicle

/-- A property of the workshop and of the pieces there are, wherever they lie, that every
production in use keeps, and the errors that are possible then. -/
structure Law (uses : Production → Prop) (I : Workshop → List Piece → Prop)
    (E : BuildError → Prop) : Prop where
  perm {w : Workshop} {ps qs : List Piece} : ps.Perm qs → I w ps → I w qs
  shelf {w : Workshop} {ps : List Piece} (shelf : Array (Option Piece)) :
    I w ps → I { w with shelf } ps
  make {p : Production} {groups : List (List Piece)} {rest : List Piece} {w : Workshop} : uses p →
    I w (groups.flatten ++ rest) →
    Build.Ends (p.build groups) w (fun piece w' => I w' (piece :: rest)) E
  wrapped : ∀ wrapper : Wrapper, ∀ p ∈ wrapper.productions, uses p
  joined : ∀ operator, uses (.binary operator)
  absent : ∀ place, E (.absent place)
  emptyChain : E .emptyChain

namespace Law

open Build (Ends)

variable {uses : Production → Prop} {I : Workshop → List Piece → Prop} {E : BuildError → Prop}
  (law : Law uses I E)
include law

/-- A law is a chronicle that forgets what has been applied. -/
theorem chronicle : Chronicle uses (fun _ => I) E where
  perm := law.perm
  shelf := law.shelf
  make := law.make
  wrapped := law.wrapped
  joined := law.joined
  absent := law.absent
  emptyChain := law.emptyChain

theorem shelve {forms : List Form} {w : Workshop}
    (hok : ∀ form ∈ forms, ∀ f ∈ form.subforms, ∀ p groups, f = .make p groups → uses p)
    (hI : I w w.pieces) : Ends (Workshop.shelve forms) w (fun _ w' => I w' w'.pieces) E :=
  law.chronicle.shelve [] hok hI

/-- **A law of the productions holds of every workshop, and no other errors are possible.** -/
theorem ofForms {forms : List Form}
    (hok : ∀ form ∈ forms, ∀ f ∈ form.subforms, ∀ p groups, f = .make p groups → uses p)
    (hI : I {} []) : (∀ w, Workshop.ofForms forms = .ok w → I w w.pieces) ∧
      ∀ e, Workshop.ofForms forms = .error e → E e := by
  have h := law.shelve hok (w := {}) hI
  unfold Workshop.ofForms
  cases hs : (Workshop.shelve forms).run {} with
  | error e => exact ⟨nofun, fun e' he => by cases he; exact h.of_error hs⟩
  | ok r => exact ⟨fun w hw => by cases hw; exact h.of_ok hs, nofun⟩

end Law

/-- A property of the workshop and of the pieces there are, wherever they lie, that every
production keeps. -/
structure Invariant (I : Workshop → List Piece → Prop) : Prop where
  perm {w : Workshop} {ps qs : List Piece} : ps.Perm qs → I w ps → I w qs
  shelf {w : Workshop} {ps : List Piece} (shelf : Array (Option Piece)) :
    I w ps → I { w with shelf } ps
  make {p : Production} {groups : List (List Piece)} {piece : Piece} {w w' : Workshop}
    {rest : List Piece} : p.Allowed → p.product.Makes groups w piece w' →
    I w (groups.flatten ++ rest) → I w' (piece :: rest)

namespace Invariant

variable {I : Workshop → List Piece → Prop} (inv : Invariant I)
include inv

/-- An invariant is a law without restrictions. -/
theorem law : Law (fun _ => True) I (fun _ => True) where
  perm := inv.perm
  shelf := inv.shelf
  make _ hI := Build.ends_iff.mpr
    ⟨fun _ _ hr => inv.make (Production.makes_of_run hr).1 (Production.makes_of_run hr).2 hI,
      fun _ _ => trivial⟩
  wrapped _ _ _ := trivial
  joined _ := trivial
  absent _ := trivial
  emptyChain := trivial

/-- **An invariant of the productions holds of every workshop.** -/
theorem ofForms {forms : List Form} {w : Workshop} (h : Workshop.ofForms forms = .ok w)
    (hI : I {} []) : I w w.pieces :=
  (inv.law.ofForms (fun _ _ _ _ _ _ _ => trivial) hI).1 w h

/-- It also holds with the piece that another form describes. -/
theorem of_run {forms : List Form} {form : Form} {piece : Piece} {w w' : Workshop}
    (h : Workshop.ofForms forms = .ok w) (hI : I {} [])
    (run : form.eval.run w = .ok (piece, w')) : I w' (piece :: w'.pieces) :=
  (inv.law.chronicle.records.eval [] [] (fun _ _ _ _ _ => trivial) (inv.ofForms h hI)).of_ok run

end Invariant

end InlineLocals
