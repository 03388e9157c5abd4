import InlineLocals.Proofs.Declaration.CallSite
import InlineLocals.Proofs.Declaration.Found
import InlineLocals.Proofs.Syntax.Outline

/-!
# Declaration — Twin

A search sees the outline of a tree only.  What is left out of the outline the search leaves out
too (`Shaped.bars_of_suppresses`), so in two trees with one outline it comes to twins, one after the
other (`Twin.forall₂_reached`), and from twins the ways up to a call lead to twins, or break at
nodes of one kind (`Twin.declaringCall`).
-/

namespace InlineLocals

namespace Node

/-! ### The nodes that the search comes to -/

/-- A part that the outline leaves out is not searched. -/
theorem Shaped.bars_of_suppresses {n child : Node} (h : n.Shaped) {i : Nat}
    (hc : n.children[i]? = some child) (hs : n.kind.suppresses i = true) (first : Bool) :
    n.bars first i child = true := by
  unfold Kind.suppresses at hs
  unfold bars
  split at hs
  · next hk => simpa [hk] using hs
  · next hk => simpa [hk] using hs
  · next hk => simpa [hk] using hs
  · next hk => simpa [hk] using hs
  · next hk =>
    obtain ⟨e, arms, hn, -, ha⟩ := h.switchExpression hk
    rw [hn] at hc
    match i, hs, hc with
    | i + 1, _, hc => simp [hk, ha child (List.mem_of_getElem? hc)]
  · next hk => simpa [hk] using hs
  · next hk => simp [hk]
  · next hk => simp [hk]
  · next hk => simp [hk]
  · cases hs

section

variable {names names' : Names} {n n' : Node}

/-- The same steps are barred from nodes with one outline. -/
theorem bars_eq_of_outline_eq (h : n.outline names = n'.outline names') {child child' : Node}
    (hc : child.kind = child'.kind) (first : Bool) (i : Nat) :
    n.bars first i child = n'.bars first i child' := by
  have hk := kind_eq_of_outline_eq h
  by_cases hj : n.kind = .joinClause
  · have hlen := (forall₂_children h (by rw [hj]; exact fun _ => rfl)).length_eq
    simp only [bars, hj, ← hk, hlen]
  · rw [bars_eq hj first, bars_eq (hk ▸ hj) first]
    unfold bars
    rw [← hk, hc]
    split <;> rfl

/-- The child at a place is the first of the children from the place on. -/
theorem getElem?_of_drop_eq_cons {i : Nat} {c : Node} {cs : List Node}
    (h : n.children.drop i = c :: cs) :
    n.children[i]? = some c ∧ n.children.drop (i + 1) = cs := by
  constructor
  · rw [← List.head?_drop, h]
    rfl
  · rw [← List.tail_drop, h]
    rfl

/-- Nothing is searched from a place on where nothing is left of the outline. -/
theorem reachedFrom_eq_nil (h : n.Shaped) (first : Bool) : ∀ {i : Nat} {ns : List Node},
    n.children.drop i = ns → outlineFrom names n.kind i ns = [] → n.reachedFrom first i ns = []
  | _, [], _, _ => by rw [reachedFrom]
  | i, c :: rest, hd, ho => by
      obtain ⟨hc, hrest⟩ := getElem?_of_drop_eq_cons hd
      rw [outlineFrom] at ho
      split at ho
      · next hs =>
        rw [reachedFrom, if_pos (h.bars_of_suppresses hc hs first),
          reachedFrom_eq_nil h first hrest ho]
        rfl
      · cases ho

end

namespace Twin

variable {names names' : Names} {root root' : Node}

/-- What the search comes to from the children of twins are twins, if that is so for each child. -/
theorem forall₂_reachedFrom {n n' : Node} (h : Twin names names' root root' n n') (hn : n.Shaped)
    (hn' : n'.Shaped) (first : Bool)
    (ih : ∀ c ∈ n.children, ∀ c' ∈ n'.children, Twin names names' root root' c c' →
      List.Forall₂ (fun r r' => Twin names names' root root' r.2 r'.2) (c.reached false)
        (c'.reached false)) :
    ∀ {i : Nat} {ns ns' : List Node}, n.children.drop i = ns → n'.children.drop i = ns' →
      outlineFrom names n.kind i ns = outlineFrom names' n.kind i ns' →
        List.Forall₂ (fun r r' => Twin names names' root root' r.2 r'.2)
          (n.reachedFrom first i ns) (n'.reachedFrom first i ns')
  | i, [], ns', _, hd', ho => by
      rw [outlineFrom, kind_eq_of_outline_eq h.outline_eq] at ho
      rw [reachedFrom, reachedFrom_eq_nil hn' first hd' ho.symm]
      exact .nil
  | i, c :: cs, [], hd, _, ho => by
      rw [outlineFrom.eq_1 names'] at ho
      rw [reachedFrom_eq_nil hn first hd ho, reachedFrom]
      exact .nil
  | i, c :: cs, c' :: cs', hd, hd', ho => by
      obtain ⟨hc, hcs⟩ := getElem?_of_drop_eq_cons hd
      obtain ⟨hc', hcs'⟩ := getElem?_of_drop_eq_cons hd'
      have hk := kind_eq_of_outline_eq h.outline_eq
      rw [outlineFrom, outlineFrom] at ho
      rw [reachedFrom, reachedFrom]
      -- A suppressed child is missing from both outlines, and it is barred in both trees.
      cases hs : n.kind.suppresses i with
      | true =>
          rw [if_pos hs, if_pos hs] at ho
          rw [if_pos (hn.bars_of_suppresses hc hs first),
            if_pos (hn'.bars_of_suppresses hc' (hk ▸ hs) first)]
          exact forall₂_reachedFrom h hn hn' first ih hcs hcs' ho
      | false =>
          rw [if_neg (by simp [hs]), if_neg (by simp [hs])] at ho
          obtain ⟨hoc, hocs⟩ := List.cons_eq_cons.mp ho
          have hrest := forall₂_reachedFrom h hn hn' first ih hcs hcs' hocs
          have hb := bars_eq_of_outline_eq h.outline_eq (kind_eq_of_outline_eq hoc) first i
          have hm := List.mem_of_getElem? hc
          have hm' := List.mem_of_getElem? hc'
          -- Twins are barred at the same places, since bars only look at kinds.
          refine List.rel_append ?_ hrest
          rw [← hb]
          split
          · exact .nil
          · have hreached := ih c hm c' hm' (.child h hm hm' hoc)
            rw [List.forall₂_map_left_iff, List.forall₂_map_right_iff]
            exact hreached

/-- **A search comes to twins in two trees with one outline**, one after the other. -/
theorem forall₂_reached (first : Bool) {n n' : Node} (h : Twin names names' root root' n n')
    (hn : n.Grammatical) (hn' : n'.Grammatical) :
    List.Forall₂ (fun r r' => Twin names names' root root' r.2 r'.2) (n.reached first)
      (n'.reached first) := by
  induction n using Node.induction generalizing n' first with
  | step n ih =>
      rw [reached_eq, reached_eq]
      refine List.rel_append ?_ (.cons h .nil)
      refine h.forall₂_reachedFrom hn.shaped hn'.shaped first ?_ rfl rfl
        (outlineFrom_eq_of_outline_eq h.outline_eq)
      intro c hc c' hc' htwin
      exact ih c hc false htwin (hn.child hc)
        (hn'.child hc')

/-! ### The way up from twins -/

section

variable {forms forms' : List Form} {w w' : Workshop}
  (built : Workshop.ofForms forms = .ok w) (built' : Workshop.ofForms forms' = .ok w')
  (hr : w.Holds root) (hr' : w'.Holds root')

include built hr in
theorem exists_climbs {shape : List (Kind → Bool)} {d d' top : Node}
    (h : Twin names names' root root' d d') (hc : root.Climbs shape d top) :
    ∃ top', root'.Climbs shape d' top' ∧ Twin names names' root root' top top' := by
  induction hc generalizing d' with
  | nil d => exact ⟨d', .nil d', h⟩
  | cons hp ha _ ih =>
      obtain ⟨p', hp', htwin⟩ := h.exists_parent built hr hp
      obtain ⟨top', hc', htop⟩ := ih htwin
      have hk := kind_eq_of_outline_eq htwin.outline_eq
      exact ⟨top', .cons hp' (hk ▸ ha) hc', htop⟩

include built built' hr hr' in
theorem breaks {shape : List (Kind → Bool)} {d d' : Node} {context : Option Kind}
    (h : Twin names names' root root' d d') (hb : root.Breaks shape d context) :
    root'.Breaks shape d' context := by
  induction hb generalizing d' with
  | ends hp =>
      refine .ends fun p' hp' => ?_
      obtain ⟨p, hp₀, -⟩ := h.symm.exists_parent built' hr' hp'
      exact hp p hp₀
  | here hp ha =>
      obtain ⟨p', hp', htwin⟩ := h.exists_parent built hr hp
      rw [kind_eq_of_outline_eq htwin.outline_eq] at ha ⊢
      exact .here hp' ha
  | above hp ha _ ih =>
      obtain ⟨p', hp', htwin⟩ := h.exists_parent built hr hp
      have hk := kind_eq_of_outline_eq htwin.outline_eq
      exact .above hp' (hk ▸ ha) (ih htwin)

include built built' hr hr' in
/-- The calls of twins are twins; or both have none, and the ways up break at nodes of one kind. -/
theorem declaringCall {d d' : Node} (h : Twin names names' root root' d d') :
    (∃ c c', (Tree.ofRoot root).declaringCall d = .ok c ∧
      (Tree.ofRoot root').declaringCall d' = .ok c' ∧ Twin names names' root root' c c') ∨
    (∃ e e', (Tree.ofRoot root).declaringCall d = .error e ∧
      (Tree.ofRoot root').declaringCall d' = .error e' ∧ e.context = e'.context) := by
  have hd := hr.within h.within.1
  have hd' := hr'.within h.within.2
  rcases root.climbs_or_breaks callShape d with ⟨c, hc⟩ | ⟨context, hb⟩
  · obtain ⟨c', hc', htwin⟩ := h.exists_climbs built hr hc
    exact .inl ⟨c, c', (Tree.declaringCall_eq_ok_iff_climbs built hr hd).mpr hc,
      (Tree.declaringCall_eq_ok_iff_climbs built' hr' hd').mpr hc', htwin⟩
  · have hb' := h.breaks built built' hr hr' hb
    exact .inr ⟨⟨context, d.range.pos⟩, ⟨context, d'.range.pos⟩,
      (Tree.declaringCall_eq_error_iff built hr hd).mpr ⟨hb, rfl⟩,
      (Tree.declaringCall_eq_error_iff built' hr' hd').mpr ⟨hb', rfl⟩, rfl⟩

end

end Twin

end Node

end InlineLocals
