import InlineLocals.Syntax.Form
import Mathlib.Data.List.Basic
import Mathlib.Data.List.Perm.Basic

/-!
# Syntax — Building

What a successful run of the workshop does.  For each action there is an inversion lemma, and for
the loops of a production a relation between what a run takes and what it leaves: the leaves it
writes (`Spelling.Written`), the parts that come out of a slot (`Slot.Fills`) and out of all slots
(`Slot.FillsAll`), and the piece that is made (`Product.Makes`).

Productions leave the shelf alone (`Product.Makes.shelf_eq`); a piece that is taken from there was
one of its pieces (`Build.pieces_take`).
-/

namespace InlineLocals

/-! ### Runs of the elementary actions -/

namespace Build

/-- A successful run of two actions is a run of the first and a run of the second. -/
theorem run_bind_eq_ok {α β : Type} {x : Build α} {f : α → Build β} {w w' : Workshop} {b : β}
    (h : (x >>= f).run w = .ok (b, w')) :
    ∃ a v, x.run w = .ok (a, v) ∧ (f a).run v = .ok (b, w') := by
  rw [StateT.run_bind] at h
  cases hx : x.run w with
  | error e => rw [hx] at h; cases h
  | ok r =>
      rw [hx] at h
      exact ⟨r.1, r.2, rfl, h⟩

/-- A span is computed from the ranges and the next position, and changes nothing. -/
theorem run_span_eq_ok {ranges : List Range} {range : Range} {w w' : Workshop}
    (h : (span ranges).run w = .ok (range, w')) :
    Range.span? w.nextPos ranges = some range ∧ w' = w := by
  obtain ⟨v, w₁, hg, hs⟩ := run_bind_eq_ok h
  cases hg
  split at hs
  · next r hr =>
    cases hs
    exact ⟨hr, rfl⟩
  · cases hs

/-- A new node takes the next id.  It spans its leaves and its children, or else it is put at the
next position. -/
theorem run_node_eq_ok {kind : Kind} {leaves : List Leaf} {children : List Node} {rank : Nat}
    {w w' : Workshop} {n : Node} (h : (node kind leaves children rank).run w = .ok (n, w')) :
    ∃ range, Range.span? w.nextPos (leaves.map Leaf.range ++ children.map Node.range) = some range
      ∧ n = .mk { kind, id := w.nextId, range, leaves, rank } children
      ∧ w' = { w with nextId := w.nextId + 1 } := by
  obtain ⟨range, v, hs, hn⟩ := run_bind_eq_ok h
  obtain ⟨hr, rfl⟩ := run_span_eq_ok hs
  cases hn
  exact ⟨range, hr, rfl, rfl⟩

/-- A node that is given its range takes the next id as well, and holds nothing. -/
theorem run_bareNode_eq_ok {kind : Kind} {range : Range} {w w' : Workshop} {n : Node}
    (h : (bareNode kind range).run w = .ok (n, w')) :
    n = .mk { kind, id := w.nextId, range, leaves := [], rank := 0 } []
      ∧ w' = { w with nextId := w.nextId + 1 } := by
  cases h; exact ⟨rfl, rfl⟩

/-- What is taken was at the place, where nothing is left. -/
theorem run_take_eq_ok {place : Nat} {w w' : Workshop} {piece : Piece}
    (h : (take place).run w = .ok (piece, w')) :
    w.shelf[place]? = some (some piece) ∧
      w' = { w with shelf := w.shelf.setIfInBounds place none } := by
  obtain ⟨v, w₁, hg, ht⟩ := run_bind_eq_ok h
  cases hg
  split at ht
  · next p hp =>
    cases ht
    exact ⟨hp, rfl⟩
  · cases ht

/-- Taking fails in one way only. -/
theorem eq_absent_of_run_take {place : Nat} {w : Workshop} {e : BuildError}
    (h : (take place).run w = .error e) : e = .absent place := by
  simp only [take, StateT.run_bind, StateT.run_get, pure_bind] at h
  split at h
  · cases h
  · cases h
    rfl

end Build

/-- A leaf takes the next id and stands at the next position, and one more offset separates it from
what comes next. -/
theorem Spelling.run_write_eq_ok {s : Spelling} {w w' : Workshop} {leaf : Leaf}
    (h : s.write.run w = .ok (leaf, w')) :
    leaf.info.id = w.nextId ∧ leaf.range = ⟨w.nextPos, w.nextPos + s.width⟩ ∧
      w'.nextId = w.nextId + 1 ∧ w'.nextPos = w.nextPos + s.width + 1 ∧ w'.shelf = w.shelf := by
  cases s with
  | token kind width | identifier text | discard =>
      cases h; simp [Leaf.info, Leaf.range, Spelling.width]

/-! ### Leaves and nodes among pieces -/

theorem Piece.mem_filterMap_leaf? {pieces : List Piece} {l : Leaf} :
    l ∈ pieces.filterMap leaf? ↔ .leaf l ∈ pieces := by
  rw [List.mem_filterMap]
  constructor
  · rintro ⟨piece, hp, e⟩
    cases piece with
    | leaf k => cases e; exact hp
    | node n => cases e
  · exact fun h => ⟨.leaf l, h, rfl⟩

theorem Piece.mem_filterMap_node? {pieces : List Piece} {n : Node} :
    n ∈ pieces.filterMap node? ↔ .node n ∈ pieces := by
  rw [List.mem_filterMap]
  constructor
  · rintro ⟨piece, hp, e⟩
    cases piece with
    | leaf l => cases e
    | node m => cases e; exact hp
  · exact fun h => ⟨.node n, h, rfl⟩

/-! ### Runs of productions -/

/-- The leaves that a run writes for a list of spellings. -/
inductive Spelling.Written : List Spelling → Workshop → List Leaf → Workshop → Prop where
  | nil (w : Workshop) : Written [] w [] w
  | cons {s : Spelling} {spellings : List Spelling} {leaf : Leaf} {leaves : List Leaf}
      {w v w' : Workshop} (h : s.write.run w = .ok (leaf, v)) (t : Written spellings v leaves w') :
      Written (s :: spellings) w (leaf :: leaves) w'

/-- The loop over the spellings leaves what the relation says. -/
theorem Spelling.written_of_run : ∀ {spellings : List Spelling} {leaves : List Leaf}
    {w w' : Workshop}, (spellings.mapM Spelling.write : Build _).run w = .ok (leaves, w') →
      Written spellings w leaves w'
  | [], _, w, _, h => by
      rw [List.mapM_nil] at h
      cases h
      exact .nil w
  | s :: spellings, _, _, _, h => by
      rw [List.mapM_cons] at h
      obtain ⟨leaf, v, hw, hr⟩ := Build.run_bind_eq_ok h
      obtain ⟨rest, v', hs, hp⟩ := Build.run_bind_eq_ok hr
      cases hp
      exact .cons hw (written_of_run hs)

/-- The parts that a group contributes through a slot. -/
inductive Slot.Fills (s : Slot) : List Piece → Workshop → List Piece → Workshop → Prop where
  | open (hs : s.hidden = none) (group : List Piece) (w : Workshop) : Fills s group w group w
  | absent {kind : Kind} (hs : s.hidden = some kind) (ha : s.arity = .optional) (w : Workshop) :
      Fills s [] w [] w
  | hidden {kind : Kind} (hs : s.hidden = some kind) {group : List Piece} {n : Node}
      {w w' : Workshop} (ha : s.arity = .optional → group ≠ [])
      (h : (Build.node kind [] (group.filterMap Piece.node?) 0).run w = .ok (n, w')) :
      Fills s group w [.node n] w'

/-- A run through a slot leaves what the relation says.  There are three cases: the parts stay as
they are, a hidden node takes them in, or there is nothing to take in. -/
theorem Slot.fills_of_run {s : Slot} {group parts : List Piece} {w w' : Workshop}
    (h : (s.fill group).run w = .ok (parts, w')) : s.Fills group w parts w' := by
  unfold Slot.fill at h
  split at h
  · next hs =>
    cases h
    exact .open hs _ w
  · next kind hs =>
    split at h
    · next ha =>
      simp only [Bool.and_eq_true, decide_eq_true_eq, List.isEmpty_iff] at ha
      obtain ⟨ha, rfl⟩ := ha
      cases h
      exact .absent hs ha w
    · next ha =>
      simp only [Bool.and_eq_true, decide_eq_true_eq, List.isEmpty_iff, not_and] at ha
      obtain ⟨n, v, hn, hp⟩ := Build.run_bind_eq_ok h
      cases hp
      exact .hidden hs ha hn

/-- The parts that all groups contribute, those that are attached and the others. -/
inductive Slot.FillsAll :
    List Slot → List (List Piece) → Workshop → List Piece → List Piece → Workshop → Prop where
  | nil (w : Workshop) : FillsAll [] [] w [] [] w
  | attached {s : Slot} {slots : List Slot} {group : List Piece} {groups : List (List Piece)}
      {parts attached inner : List Piece} {w v w' : Workshop} (hs : s.attached = true)
      (ha : s.admits group = true) (h : s.Fills group w parts v)
      (t : FillsAll slots groups v attached inner w') :
      FillsAll (s :: slots) (group :: groups) w (parts ++ attached) inner w'
  | inner {s : Slot} {slots : List Slot} {group : List Piece} {groups : List (List Piece)}
      {parts attached inner : List Piece} {w v w' : Workshop} (hs : s.attached = false)
      (ha : s.admits group = true) (h : s.Fills group w parts v)
      (t : FillsAll slots groups v attached inner w') :
      FillsAll (s :: slots) (group :: groups) w attached (parts ++ inner) w'

/-- The loop over the slots leaves what the relation says, when each slot admits its group. -/
theorem Slot.fillsAll_of_run : ∀ {slots : List Slot} {groups : List (List Piece)}
    {attached inner : List Piece} {w w' : Workshop}, allAdmit slots groups = true →
      (fillAll slots groups).run w = .ok ((attached, inner), w') →
      FillsAll slots groups w attached inner w'
  | [], [], _, _, w, _, _, h => by
      cases h
      exact .nil w
  | s :: slots, group :: groups, _, _, _, _, ha, h => by
      simp only [allAdmit, Bool.and_eq_true] at ha
      obtain ⟨parts, v, hf, hr⟩ := Build.run_bind_eq_ok h
      obtain ⟨⟨attached, inner⟩, v', hs, hp⟩ := Build.run_bind_eq_ok hr
      have hfills := fills_of_run hf
      have hrest := fillsAll_of_run ha.2 hs
      cases hs' : s.attached with
      | true =>
          simp only [hs', if_true] at hp
          cases hp
          exact .attached hs' ha.1 hfills hrest
      | false =>
          simp only [hs', Bool.false_eq_true, if_false] at hp
          cases hp
          exact .inner hs' ha.1 hfills hrest

/-- Where no slot is attached, nothing is. -/
theorem Slot.FillsAll.attached_eq_nil {slots : List Slot} {groups : List (List Piece)}
    {attached inner : List Piece} {w w' : Workshop}
    (h : FillsAll slots groups w attached inner w') (hs : ∀ s ∈ slots, s.attached = false) :
    attached = [] := by
  induction h with
  | nil w => rfl
  | attached hatt _ _ _ _ =>
      rw [hs _ List.mem_cons_self] at hatt
      cases hatt
  | inner _ _ _ _ ih => exact ih fun s hm => hs s (List.mem_cons_of_mem _ hm)

/-- What a product makes of groups that its slots admit. -/
inductive Product.Makes : Product → List (List Piece) → Workshop → Piece → Workshop → Prop where
  | leaf {spelling : Spelling} {leaf : Leaf} {w w' : Workshop}
      (h : spelling.write.run w = .ok (leaf, w')) :
      Makes (.leaf spelling) [] w (.leaf leaf) w'
  | word {kind : Kind} {width : Nat} {n : Node} {w w' : Workshop}
      (h : (Build.bareNode kind ⟨w.nextPos, w.nextPos + width⟩).run
        { w with nextPos := w.nextPos + width + 1 } = .ok (n, w')) :
      Makes (.word kind width) [] w (.node n) w'
  | covering {kind token : Kind} {dropped : Leaf} {n : Node} {w v w' : Workshop}
      (hd : (Spelling.fixed token).write.run w = .ok (dropped, v))
      (h : (Build.bareNode kind dropped.range).run v = .ok (n, w')) :
      Makes (.covering kind token) [] w (.node n) w'
  | node {kind : Kind} {spellings : List Spelling} {slots : List Slot} {rank : Nat}
      {groups : List (List Piece)} {written : List Leaf} {attached inner : List Piece} {n : Node}
      {w v u w' : Workshop} (hw : Spelling.Written spellings w written v)
      (hf : Slot.FillsAll slots groups v attached inner u)
      (h : (Build.node kind (written ++ inner.filterMap Piece.leaf?)
        (inner.filterMap Piece.node?) rank).run u = .ok (n, w')) :
      Makes (.node kind spellings slots rank) groups w
        (.node (n.withFirst (attached.filterMap Piece.node?))) w'

/-- A run of a product leaves what the relation says. -/
theorem Product.makes_of_run {product : Product} {groups : List (List Piece)} {piece : Piece}
    {w w' : Workshop} (ha : Slot.allAdmit product.slots groups = true)
    (h : (product.make groups).run w = .ok (piece, w')) : product.Makes groups w piece w' := by
  -- Each run is peeled apart in the order of its actions; a leaf admits no groups.
  cases product with
  | leaf spelling =>
      cases groups with
      | nil =>
          obtain ⟨leaf, v, hw, hp⟩ := Build.run_bind_eq_ok h
          cases hp
          exact .leaf hw
      | cons => cases ha
  | word kind width =>
      cases groups with
      | nil =>
          obtain ⟨range, v, hs, hr⟩ := Build.run_bind_eq_ok h
          obtain ⟨n, v', hn, hp⟩ := Build.run_bind_eq_ok hr
          cases hs
          cases hp
          exact .word hn
      | cons => cases ha
  | covering kind token =>
      cases groups with
      | nil =>
          obtain ⟨dropped, v, hd, hr⟩ := Build.run_bind_eq_ok h
          obtain ⟨n, v', hn, hp⟩ := Build.run_bind_eq_ok hr
          cases hp
          exact .covering hd hn
      | cons => cases ha
  | node kind spellings slots rank =>
      obtain ⟨written, v, hw, hr⟩ := Build.run_bind_eq_ok h
      obtain ⟨⟨attached, inner⟩, u, hf, hr'⟩ := Build.run_bind_eq_ok hr
      obtain ⟨n, v', hn, hp⟩ := Build.run_bind_eq_ok hr'
      cases hp
      exact .node (Spelling.written_of_run hw) (Slot.fillsAll_of_run ha hf) hn

/-- The production asks for a kind that it can make. -/
def Production.Allowed (p : Production) : Prop :=
  ∀ kind, p = .constructorInitializer kind → kind.isConstructorInitializer = true

/-- **Inversion.**  A run of a production that succeeds has passed its check, and makes a piece of
what its groups hold. -/
theorem Production.makes_of_run {p : Production} {groups : List (List Piece)} {piece : Piece}
    {w w' : Workshop} (h : (p.build groups).run w = .ok (piece, w')) :
    p.Allowed ∧ p.product.Makes groups w piece w' := by
  obtain ⟨u, v, hc, hr⟩ := Build.run_bind_eq_ok h
  have hv : p.Allowed ∧ v = w := by
    unfold Production.check at hc
    split at hc
    · next kind =>
      split at hc
      · next hk => cases hc; exact ⟨fun k e => by cases e; exact hk, rfl⟩
      · cases hc
    · next hne => cases hc; exact ⟨fun k e => absurd e (hne k), rfl⟩
  obtain ⟨hp, rfl⟩ := hv
  refine ⟨hp, ?_⟩
  by_cases ha : Slot.allAdmit p.product.slots groups = true
  · simp only [ha] at hr
    exact Product.makes_of_run ha hr
  · simp only [ha] at hr
    cases hr

/-! ### What building leaves on the shelf -/

/-- Writing leaves the shelf as it is. -/
theorem Spelling.Written.shelf_eq {spellings : List Spelling} {leaves : List Leaf}
    {w w' : Workshop} (h : Written spellings w leaves w') : w'.shelf = w.shelf := by
  induction h with
  | nil w => rfl
  | cons h _ ih => exact ih.trans (run_write_eq_ok h).2.2.2.2

theorem Slot.Fills.shelf_eq {s : Slot} {group parts : List Piece} {w w' : Workshop}
    (h : s.Fills group w parts w') : w'.shelf = w.shelf := by
  cases h with
  | «open» | absent => rfl
  | hidden _ _ h => obtain ⟨-, -, -, rfl⟩ := Build.run_node_eq_ok h; rfl

theorem Slot.FillsAll.shelf_eq {slots : List Slot} {groups : List (List Piece)}
    {attached inner : List Piece} {w w' : Workshop}
    (h : FillsAll slots groups w attached inner w') : w'.shelf = w.shelf := by
  induction h with
  | nil w => rfl
  | attached _ _ h _ ih | inner _ _ h _ ih => exact ih.trans h.shelf_eq

/-- No production looks at the shelf or changes it. -/
theorem Product.Makes.shelf_eq {product : Product} {groups : List (List Piece)} {piece : Piece}
    {w w' : Workshop} (h : product.Makes groups w piece w') : w'.shelf = w.shelf := by
  cases h with
  | leaf h => exact (Spelling.run_write_eq_ok h).2.2.2.2
  | word h => obtain ⟨-, rfl⟩ := Build.run_bareNode_eq_ok h; rfl
  | covering hd h =>
      obtain ⟨-, rfl⟩ := Build.run_bareNode_eq_ok h
      exact (Spelling.run_write_eq_ok hd).2.2.2.2
  | node hw hf h =>
      obtain ⟨-, -, -, rfl⟩ := Build.run_node_eq_ok h
      exact hf.shelf_eq.trans hw.shelf_eq

/-- The pieces on the shelf. -/
def Workshop.pieces (w : Workshop) : List Piece := w.shelf.toList.filterMap id

/-- A shelf has a piece less after the piece at a place is taken away. -/
theorem Workshop.perm_filterMap_set {piece : Piece} :
    ∀ (shelf : List (Option Piece)) (place : Nat), shelf[place]? = some (some piece) →
      (shelf.filterMap id).Perm (piece :: (shelf.set place none).filterMap id)
  | _ :: _, 0, h => by
      cases h
      exact .refl _
  | none :: shelf, place + 1, h => perm_filterMap_set shelf place h
  | some _ :: shelf, place + 1, h =>
      ((perm_filterMap_set shelf place h).cons _).trans (.swap _ _ _)

/-- What is taken from the shelf was one of its pieces. -/
theorem Build.pieces_take {place : Nat} {w w' : Workshop} {piece : Piece}
    (h : (take place).run w = .ok (piece, w')) : w.pieces.Perm (piece :: w'.pieces) := by
  obtain ⟨hp, rfl⟩ := run_take_eq_ok h
  rw [Workshop.pieces, Workshop.pieces, Array.toList_setIfInBounds]
  exact Workshop.perm_filterMap_set _ _ (by rwa [Array.getElem?_toList])

/-- A piece that is put on the shelf is the last one there. -/
theorem Build.pieces_put (piece : Piece) (w : Workshop) :
    Workshop.pieces { w with shelf := w.shelf.push (some piece) } = w.pieces ++ [piece] := by
  simp [Workshop.pieces]

end InlineLocals
