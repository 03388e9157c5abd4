import InlineLocals.Declaration.Context
import InlineLocals.Proofs.Syntax.Parent

/-!
# Declaration — Call site

Where a declaration expression may stand, read off the tree.  A call has a declaration as an
argument when its own argument list holds an argument whose expression is the declaration
(`Node.HasArgument`).  The check never looks at an argument list: it climbs three parents and
compares kinds.  `Node.Climbs` and `Node.Breaks` say what such a climb can come to, for any list of
conditions on the kinds: it keeps to the list up to a node, or it leaves the list at a node or
beyond the root.

* `declaringCall_eq_ok_iff_climbs`, `declaringCall_eq_error_iff`: the check is this climb.
* `climbs_callShape_iff`: the climb comes to the call that has the declaration as an argument, for
  an argument holds one expression and square brackets belong to no call.
* `Node.HasArgument.unique`: there is only one such call in the workshop.
-/

namespace InlineLocals

namespace Node

/-! ### Calls and their arguments -/

/-- `d` is the expression of one of the arguments in the call's own argument list. -/
structure HasArgument (c d : Node) : Prop where
  call : c.kind.isCall = true
  argument : ∃ list ∈ c.children, list.kind = .argumentList ∧
    ∃ argument ∈ list.children, argument.kind = .argument ∧ argument.children = [d]

/-- All that stands above an argument of a call: the argument, the list and the call, and nothing
else. -/
theorem HasArgument.above {forms : List Form} {w : Workshop} {c d a : Node}
    (built : Workshop.ofForms forms = .ok w) (h : c.HasArgument d) (hc : w.Holds c)
    (ha : w.Holds a) (hd : d ∈ a.children) : a.kind = .argument ∧
      ∀ list, w.Holds list → a ∈ list.children → list.kind = .argumentList ∧
        ∀ c', w.Holds c' → list ∈ c'.children → c' = c := by
  obtain ⟨-, list, hl, hkl, argument, hal, hka, hda⟩ := h
  have hlist := hc.child hl
  have hargument := hlist.child hal
  obtain rfl := ha.eq_of_mem_children built hargument hd (by simp [hda])
  refine ⟨hka, fun list' hlist' hal' => ?_⟩
  obtain rfl := hlist'.eq_of_mem_children built hlist hal' hal
  exact ⟨hkl, fun c' hc' hl' => hc'.eq_of_mem_children built hc hl' hl⟩

/-- A declaration is an argument of one call only. -/
theorem HasArgument.unique {forms : List Form} {w : Workshop} {c c' d : Node}
    (built : Workshop.ofForms forms = .ok w) (h : c.HasArgument d) (h' : c'.HasArgument d)
    (hc : w.Holds c) (hc' : w.Holds c') : c' = c := by
  obtain ⟨-, list, hl, -, argument, hal, -, hda⟩ := h'
  have hlist := hc'.child hl
  have hargument := hlist.child hal
  have habove := h.above built hc hargument (by simp [hda])
  exact (habove.2 list hlist hal).2 c' hc' hl

/-! ### Ways up -/

/-- In the tree below `root`, the way up from `n` to `top` is as long as the shape, and each part
of the shape accepts the node at its place. -/
inductive Climbs (root : Node) : List (Kind → Bool) → Node → Node → Prop where
  | nil (n : Node) : Climbs root [] n n
  | cons {accepts : Kind → Bool} {shape : List (Kind → Bool)} {n p top : Node}
      (hp : root.ParentIn p n) (ha : accepts p.kind = true) (h : Climbs root shape p top) :
      Climbs root (accepts :: shape) n top

/-- In the tree below `root`, the way up from `n` leaves the shape: at a node of the kind that is
given, or by ending. -/
inductive Breaks (root : Node) : List (Kind → Bool) → Node → Option Kind → Prop where
  | ends {accepts : Kind → Bool} {shape : List (Kind → Bool)} {n : Node}
      (hp : ∀ p, ¬ root.ParentIn p n) : Breaks root (accepts :: shape) n none
  | here {accepts : Kind → Bool} {shape : List (Kind → Bool)} {n p : Node}
      (hp : root.ParentIn p n) (ha : accepts p.kind = false) :
      Breaks root (accepts :: shape) n (some p.kind)
  | above {accepts : Kind → Bool} {shape : List (Kind → Bool)} {n p : Node}
      {context : Option Kind} (hp : root.ParentIn p n) (ha : accepts p.kind = true)
      (h : Breaks root shape p context) : Breaks root (accepts :: shape) n context

/-- What stands above a declaration: an argument, its list, and the call. -/
def callShape : List (Kind → Bool) := [(· == .argument), Kind.isArgumentList, Kind.isCall]

/-- The way up either keeps to a shape or leaves it somewhere. -/
theorem climbs_or_breaks (root : Node) : ∀ (shape : List (Kind → Bool)) (n : Node),
    (∃ top, root.Climbs shape n top) ∨ ∃ context, root.Breaks shape n context
  | [], n => .inl ⟨n, .nil n⟩
  | accepts :: shape, n => by
      by_cases hp : ∃ p, root.ParentIn p n
      · obtain ⟨p, hp⟩ := hp
        cases ha : accepts p.kind with
        | false => exact .inr ⟨_, .here hp ha⟩
        | true =>
            rcases climbs_or_breaks root shape p with ⟨top, h⟩ | ⟨context, h⟩
            · exact .inl ⟨top, .cons hp ha h⟩
            · exact .inr ⟨context, .above hp ha h⟩
      · exact .inr ⟨none, .ends fun p h => hp ⟨p, h⟩⟩

end Node

namespace Tree

/-! ### The check as a climb -/

/-- Goes up as many steps as the shape is long. -/
def climbShape (t : Tree) (pos : Nat) : List (Kind → Bool) → Node → Except ContextError Node
  | [], n => pure n
  | accepts :: shape, n => do t.climbShape pos shape (← t.expectParent pos accepts n)

theorem declaringCall_eq_climbShape (t : Tree) (d : Node) :
    t.declaringCall d = t.climbShape d.range.pos Node.callShape d := by
  simp only [declaringCall, Node.callShape, climbShape, bind_pure]

section

variable {forms : List Form} {w : Workshop} {root : Node}
  (built : Workshop.ofForms forms = .ok w) (hr : w.Holds root)
include built hr

theorem climbShape_of_climbs (pos : Nat) {shape : List (Kind → Bool)} {n top : Node}
    (hn : w.Holds n) (h : root.Climbs shape n top) :
    (ofRoot root).climbShape pos shape n = .ok top := by
  induction h with
  | nil n => rfl
  | @cons accepts shape n p top hp ha h ih =>
      have hs := (parent?_ofRoot_eq_some_iff built hr hn).mpr hp
      rw [climbShape, expectParent, hs]
      simp only [ha, if_true]
      exact ih (hr.within hp.1)

theorem climbShape_of_breaks (pos : Nat) {shape : List (Kind → Bool)} {n : Node}
    {context : Option Kind} (hn : w.Holds n) (h : root.Breaks shape n context) :
    (ofRoot root).climbShape pos shape n = .error ⟨context, pos⟩ := by
  induction h with
  | @ends accepts shape n hp =>
      have hs : (ofRoot root).parent? n = none := by
        by_contra hne
        obtain ⟨p, hs⟩ := Option.ne_none_iff_exists'.mp hne
        exact hp p ((parent?_ofRoot_eq_some_iff built hr hn).mp hs)
      rw [climbShape, expectParent, hs]
      rfl
  | @here accepts shape n p hp ha =>
      have hs := (parent?_ofRoot_eq_some_iff built hr hn).mpr hp
      rw [climbShape, expectParent, hs]
      simp only [ha]
      rfl
  -- The position is that of the declaration at every height, so it is fixed in the induction.
  | @above accepts shape n p context hp ha h ih =>
      have hs := (parent?_ofRoot_eq_some_iff built hr hn).mpr hp
      rw [climbShape, expectParent, hs]
      simp only [ha, if_true]
      exact ih (hr.within hp.1)

theorem declaringCall_eq_ok_iff_climbs {d c : Node} (hd : w.Holds d) :
    (ofRoot root).declaringCall d = .ok c ↔ root.Climbs Node.callShape d c := by
  rw [declaringCall_eq_climbShape]
  refine ⟨fun h => ?_, climbShape_of_climbs built hr _ hd⟩
  rcases root.climbs_or_breaks Node.callShape d with ⟨top, hc⟩ | ⟨context, hb⟩
  · rw [climbShape_of_climbs built hr _ hd hc] at h
    cases h
    exact hc
  · rw [climbShape_of_breaks built hr _ hd hb] at h
    cases h

theorem declaringCall_eq_error_iff {d : Node} {e : ContextError} (hd : w.Holds d) :
    (ofRoot root).declaringCall d = .error e ↔
      root.Breaks Node.callShape d e.context ∧ e.pos = d.range.pos := by
  rw [declaringCall_eq_climbShape]
  constructor
  · intro h
    rcases root.climbs_or_breaks Node.callShape d with ⟨top, hc⟩ | ⟨context, hb⟩
    · rw [climbShape_of_climbs built hr _ hd hc] at h
      cases h
    · rw [climbShape_of_breaks built hr _ hd hb] at h
      cases h
      exact ⟨hb, rfl⟩
  · rintro ⟨hb, hpos⟩
    rw [climbShape_of_breaks built hr _ hd hb, ← hpos]

/-- The climb comes to the call in the tree that has the declaration as an argument. -/
theorem climbs_callShape_iff {d c : Node} :
    root.Climbs Node.callShape d c ↔ c.Within root ∧ c.HasArgument d := by
  constructor
  · rintro (_ | ⟨ha, hka, _ | ⟨hl, hkl, _ | ⟨hc, hkc, _ | _⟩⟩⟩)
    next a l =>
    have hg := hr.grammatical built
    obtain ⟨e, he⟩ := (hg a ha.1).argument (beq_iff_eq.mp hka)
    have hlist := (hg c hc.1).argumentList hkc hkl hc.2
    have hd := ha.2
    rw [he, List.mem_singleton] at hd
    exact ⟨hc.1, hkc, l, hc.2, hlist, a, hl.2, beq_iff_eq.mp hka, hd ▸ he⟩
  · rintro ⟨hc, hk, list, hl, hkl, argument, ha, hka, hd⟩
    have hlist := (Node.within_of_mem_children hl).trans hc
    refine .cons ⟨(Node.within_of_mem_children ha).trans hlist, by simp [hd]⟩ (by simp [hka])
      (.cons ⟨hlist, ha⟩ (Kind.isArgumentList_iff.mpr (.inl hkl)) (.cons ⟨hc, hl⟩ hk (.nil c)))

end

end Tree

end InlineLocals
