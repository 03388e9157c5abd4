import Mathlib
import InlineLocals.Proofs.Syntax.Extent
import InlineLocals.Proofs.Syntax.Layout
import InlineLocals.Proofs.Syntax.Shape
import InlineLocals.Proofs.Text.Span

/-!
# Syntax — SourceOrder

Whether children stand in the text in the order in which they are listed.  All that a production
makes lies between the positions at which its parts begin and the position to come
(`Product.Makes.between`), so pieces that are built from left to right stand one after the other,
whole trees of them (`Piece.Precedes`).  A production keeps that order, unless it hides an empty
list in front of other parts (`Slot.Settled`): the node of an empty list is made when all parts are
there, and so it has its place after them.

There is one production that can do this.  The list of arguments of an object creation is listed
before the initializer, and when it is empty and the initializer is not, it stands after the
initializer (`Node.Misplaced`).  In all other nodes of a value that one form builds from left to
right the children are in source order (`Form.inSourceOrder_of_run`).
-/

namespace InlineLocals

/-! ### Trees one after the other -/

/-- The ranges of a piece: that of the leaf, or those of all nodes in the tree. -/
def Piece.ranges : Piece → List Range
  | leaf l => [l.range]
  | node n => n.nodes.map Node.range

/-- All of the first piece ends before any of the second starts. -/
def Piece.Precedes (p q : Piece) : Prop := ∀ r ∈ p.ranges, ∀ s ∈ q.ranges, r.stop ≤ s.pos

/-- All of the piece lies between the two positions. -/
def Piece.Between (lo hi : Nat) (p : Piece) : Prop := ∀ r ∈ p.ranges, lo ≤ r.pos ∧ r.stop ≤ hi

theorem Piece.range_mem_ranges {m n : Node} (h : m.Within n) : m.range ∈ (node n).ranges :=
  List.mem_map_of_mem (Node.mem_nodes.mpr h)

theorem Piece.between_node_iff {lo hi : Nat} {n : Node} : (node n).Between lo hi ↔
    (lo ≤ n.range.pos ∧ n.range.stop ≤ hi) ∧ ∀ c ∈ n.children, (node c).Between lo hi := by
  simp only [Between, ranges, Node.nodes_eq n, List.map_cons, List.forall_mem_cons,
    List.map_flatMap, List.mem_flatMap]
  exact and_congr_right' ⟨fun h c hc r hr => h r ⟨c, hc, hr⟩, fun h r ⟨c, hc, hr⟩ => h c hc r hr⟩

namespace Node

/-- The node ends before the other starts. -/
def EndsBefore (c d : Node) : Prop := c.range.stop ≤ d.range.pos

instance : DecidableRel EndsBefore := fun c d =>
  inferInstanceAs (Decidable (c.range.stop ≤ d.range.pos))

theorem endsBefore_of_precedes {c d : Node} (h : (Piece.node c).Precedes (.node d)) {a b : Node}
    (ha : a.Within c) (hb : b.Within d) : a.EndsBefore b :=
  h _ (Piece.range_mem_ranges ha) _ (Piece.range_mem_ranges hb)

/-- Children that stand one after the other, with all that lies within them. -/
def InSourceOrder (n : Node) : Prop :=
  n.children.Pairwise fun c d => (Piece.node c).Precedes (.node d)

theorem InSourceOrder.endsBefore {n : Node} (h : n.InSourceOrder) :
    n.children.Pairwise EndsBefore :=
  h.imp fun hcd => endsBefore_of_precedes hcd (.refl _) (.refl _)

/-- An object creation with an empty list of arguments and with an initializer that is not empty.
The list has its place after the initializer, before which it is listed. -/
structure Misplaced (n type arguments initializer : Node) : Prop where
  kind : n.kind = .objectCreationExpression
  children : n.children = [type, arguments, initializer]
  arguments_kind : arguments.kind = .argumentList
  arguments_empty : arguments.children = []
  initializer_filled : initializer.children ≠ []
  type_endsBefore : type.EndsBefore arguments ∧ type.EndsBefore initializer
  after : ∃ pos, arguments.range = .empty pos ∧ initializer.range.stop ≤ pos

/-- Then the children are out of order, unless there is no text in the initializer. -/
theorem Misplaced.not_isChain {n type arguments initializer : Node}
    (h : n.Misplaced type arguments initializer)
    (ht : initializer.range.pos < initializer.range.stop) : ¬ n.children.IsChain EndsBefore := by
  intro hchain
  rw [h.children, List.isChain_cons_cons, List.isChain_cons_cons] at hchain
  obtain ⟨pos, hpos, hafter⟩ := h.after
  have hle : arguments.range.stop ≤ initializer.range.pos := hchain.2.1
  have hstop : arguments.range.stop = pos := congrArg Range.stop hpos
  omega

/-- They are in order exactly when the initializer is as empty as the list and stands at the same
position. -/
theorem Misplaced.isChain_iff {n type arguments initializer : Node}
    (h : n.Misplaced type arguments initializer) (hup : initializer.range.Upright) :
    n.children.IsChain EndsBefore ↔ initializer.range = arguments.range := by
  obtain ⟨pos, hpos, hafter⟩ := h.after
  have hstop : arguments.range.stop = pos := congrArg Range.stop hpos
  rw [h.children, List.isChain_cons_cons, List.isChain_cons_cons]
  constructor
  · rintro ⟨-, hle, -⟩
    -- The initializer starts at `pos` or after it, and ends there or before it.
    have hle : arguments.range.stop ≤ initializer.range.pos := hle
    have hup : initializer.range.pos ≤ initializer.range.stop := hup
    rw [hpos]
    exact congrArg₂ Range.mk (show initializer.range.pos = pos by omega)
      (show initializer.range.stop = pos by omega)
  · intro heq
    exact ⟨h.type_endsBefore.1, Nat.le_of_eq (by rw [heq, hpos]; rfl), .singleton _⟩

theorem Misplaced.initializer_endsBefore {n type arguments initializer : Node}
    (h : n.Misplaced type arguments initializer) : initializer.EndsBefore arguments := by
  obtain ⟨pos, hpos, hafter⟩ := h.after
  rw [EndsBefore, hpos]
  exact hafter

/-- The preorder of a tree in source order is the order of the text. -/
theorem pairwise_nodes {n : Node} (h : ∀ m : Node, m.Within n → m.InSourceOrder) :
    n.nodes.Pairwise fun a b => b.Within a ∨ a.EndsBefore b := by
  induction n using Node.induction with
  | step n ih =>
      rw [nodes_eq, List.pairwise_cons, List.pairwise_flatMap]
      refine ⟨fun b hb => .inl ?_, fun c hc => ?_, ?_⟩
      · obtain ⟨c, hc, hb⟩ := List.mem_flatMap.mp hb
        exact (mem_nodes.mp hb).trans (within_of_mem_children hc)
      · exact ih c hc fun m hm => h m (hm.trans (within_of_mem_children hc))
      · refine (h n (.refl n)).imp fun hcd a ha b hb => .inr ?_
        exact endsBefore_of_precedes hcd (mem_nodes.mp ha) (mem_nodes.mp hb)

end Node

/-! ### What lies between two positions -/

/-- A span lies where the ranges do, or else where it is put when there are none. -/
theorem Range.between_of_span? {origin lo hi : Nat} {ranges : List Range} {t : Range}
    (h : span? origin ranges = some t) (hr : ∀ r ∈ ranges, lo ≤ r.pos ∧ r.stop ≤ hi)
    (hnone : ranges = [] → lo ≤ origin ∧ origin ≤ hi) : lo ≤ t.pos ∧ t.stop ≤ hi := by
  by_cases hne : ranges = []
  · subst hne
    cases h
    exact hnone rfl
  · have hall : ∀ r ∈ ranges, (⟨lo, hi⟩ : Range).contains r = true := fun r hm =>
      contains_iff.mpr (hr r hm)
    exact contains_iff.mp ((spans_of_span? h hne).least _ hall)

section

variable {lo hi : Nat} {w w' : Workshop}

/-- A new node lies where its parts do, and one without parts at the next position. -/
theorem Build.between_of_run_node {kind : Kind} {leaves : List Leaf} {children : List Node}
    {rank : Nat} {n : Node} (h : (node kind leaves children rank).run w = .ok (n, w'))
    (first : List Node) (hl : ∀ l ∈ leaves, lo ≤ l.range.pos ∧ l.range.stop ≤ hi)
    (hc : ∀ c ∈ first ++ children, (Piece.node c).Between lo hi)
    (hnone : leaves = [] → children = [] → lo ≤ w.nextPos ∧ w.nextPos ≤ hi) :
    (Piece.node (n.withFirst first)).Between lo hi := by
  obtain ⟨range, hr, rfl, -⟩ := run_node_eq_ok h
  refine Piece.between_node_iff.mpr ⟨Range.between_of_span? hr ?_ ?_, hc⟩
  · simp only [List.forall_mem_append, List.forall_mem_map]
    refine ⟨hl, fun c hm => ?_⟩
    exact (Piece.between_node_iff.mp (hc c (List.mem_append_right _ hm))).1
  · intro hnil
    rw [List.append_eq_nil_iff, List.map_eq_nil_iff, List.map_eq_nil_iff] at hnil
    exact hnone hnil.1 hnil.2

/-- The parts of a slot lie where its group does, but for the node of an empty list. -/
theorem Slot.Fills.between {s : Slot} {group parts : List Piece} (h : s.Fills group w parts w')
    (ha : s.admits group = true) (hs : s.sound = true) (hg : ∀ p ∈ group, p.Between lo hi)
    (hnone : s.hidden.isSome = true → s.arity ≠ .optional → group = [] →
      lo ≤ w.nextPos ∧ w.nextPos ≤ hi) : ∀ p ∈ parts, p.Between lo hi := by
  cases h with
  | «open» => exact hg
  | absent => nofun
  | hidden hh hne hn =>
      obtain ⟨ns, rfl⟩ := Slot.exists_nodes ha (Slot.sound_hidden hh hs).1
      rw [filterMap_node?_map_node] at hn
      refine List.forall_mem_singleton.mpr ?_
      have hn' := Build.between_of_run_node hn [] nofun
        (fun c hc => hg _ (List.mem_map_of_mem hc)) fun _ hnil => ?_
      · obtain ⟨range, -, rfl, -⟩ := Build.run_node_eq_ok hn
        exact hn'
      · subst hnil
        exact hnone (by rw [hh]; rfl) (fun ho => hne ho rfl) rfl

/-- What each slot makes so, all parts are. -/
theorem Slot.FillsAll.forall_parts {slots : List Slot} {groups : List (List Piece)}
    {attached inner : List Piece} {P : Piece → Prop} (h : FillsAll slots groups w attached inner w')
    (hP : ∀ s ∈ slots, ∀ group ∈ groups, ∀ {parts : List Piece} {u v : Workshop},
      s.admits group = true → u.nextPos = w.nextPos → s.Fills group u parts v → ∀ p ∈ parts, P p) :
    ∀ p ∈ attached ++ inner, P p := by
  induction h with
  | nil w => nofun
  | @attached s slots group groups parts _ _ _ _ _ _ ha h _ ih
  | @inner s slots group groups parts _ _ _ _ _ _ ha h _ ih =>
      have hparts := hP s List.mem_cons_self group List.mem_cons_self ha rfl h
      have hrest := ih fun t ht group hgroup _ _ _ ha hpos hf =>
        hP t (List.mem_cons_of_mem _ ht) group (List.mem_cons_of_mem _ hgroup) ha
          (hpos.trans h.leaves_subset.2.2) hf
      intro p hp
      by_cases hpart : p ∈ parts
      · exact hparts p hpart
      · refine hrest p ?_
        simp only [List.mem_append, hpart, false_or] at hp ⊢
        exact hp

/-- All parts lie where the groups do, when the next position lies there as well. -/
theorem Slot.FillsAll.between {slots : List Slot} {groups : List (List Piece)}
    {attached inner : List Piece} (h : FillsAll slots groups w attached inner w')
    (hs : slots.all Slot.sound = true) (hg : ∀ p ∈ groups.flatten, p.Between lo hi)
    (hpos : lo ≤ w.nextPos ∧ w.nextPos ≤ hi) : ∀ p ∈ attached ++ inner, p.Between lo hi :=
  h.forall_parts fun s hm _ hgroup _ _ _ ha hu hf =>
    hf.between ha (List.all_eq_true.mp hs s hm)
      (fun p hp => hg p (List.mem_flatten_of_mem hgroup hp)) fun _ _ _ => hu.symm ▸ hpos

theorem Spelling.Written.between {spellings : List Spelling} {written : List Leaf}
    (h : Written spellings w written w') :
    ∀ l ∈ written, w.nextPos ≤ l.range.pos ∧ l.range.stop ≤ w'.nextPos := by
  induction h with
  | nil w => nofun
  | cons hs ht ih =>
      obtain ⟨-, hrange, -, hpos, -⟩ := run_write_eq_ok hs
      have hle := ht.nextPos_le
      refine List.forall_mem_cons.mpr ⟨?_, fun l hl => ⟨?_, (ih l hl).2⟩⟩
      · rw [hrange]
        exact ⟨Nat.le_refl _, by simp only; omega⟩
      · have hafter := (ih l hl).1
        omega

/-- A node that stands alone lies where its range does. -/
theorem Build.between_of_run_bareNode {kind : Kind} {range : Range} {n : Node}
    (h : (bareNode kind range).run w = .ok (n, w')) (hr : lo ≤ range.pos ∧ range.stop ≤ hi) :
    (Piece.node n).Between lo hi := by
  obtain ⟨rfl, -⟩ := run_bareNode_eq_ok h
  exact Piece.between_node_iff.mpr ⟨hr, nofun⟩

/-- **What is made lies between its parts and the position to come.** -/
theorem Product.Makes.between {product : Product} {groups : List (List Piece)} {piece : Piece}
    (h : product.Makes groups w piece w') (hf : product.follows = true)
    (hlo : lo ≤ w.nextPos) (hg : ∀ p ∈ groups.flatten, p.Between lo w.nextPos) :
    piece.Between lo w'.nextPos := by
  cases h with
  | leaf h =>
      obtain ⟨-, hrange, -, hpos, -⟩ := Spelling.run_write_eq_ok h
      refine List.forall_mem_singleton.mpr ?_
      rw [hrange]
      exact ⟨hlo, by simp only; omega⟩
  | word h =>
      obtain ⟨-, rfl⟩ := Build.run_bareNode_eq_ok h
      exact Build.between_of_run_bareNode h ⟨hlo, Nat.le_succ _⟩
  | covering hd h =>
      obtain ⟨-, hrange, -, hpos, -⟩ := Spelling.run_write_eq_ok hd
      obtain ⟨-, rfl⟩ := Build.run_bareNode_eq_ok h
      refine Build.between_of_run_bareNode h ?_
      rw [hrange]
      exact ⟨hlo, by simp only; omega⟩
  | node hw hfills h =>
      simp only [Product.follows, Bool.and_eq_true] at hf
      have hle := hw.nextPos_le
      have hpos := hfills.leaves_subset.2.2
      obtain ⟨-, -, -, rfl⟩ := Build.run_node_eq_ok h
      have hparts := hfills.between hf.1.1
        (fun p hp r hr => ⟨(hg p hp r hr).1, Nat.le_trans (hg p hp r hr).2 hle⟩)
        ⟨Nat.le_trans hlo hle, Nat.le_refl _⟩
      -- Hidden nodes take no width, so the parts still end where the writing did.
      rw [← hpos] at hparts
      refine Build.between_of_run_node h _ (List.forall_mem_append.mpr ⟨fun l hl => ?_, ?_⟩) ?_ ?_
      · have hl := hw.between l hl
        rw [hpos]
        exact ⟨Nat.le_trans hlo hl.1, hl.2⟩
      · intro l hl
        have hl := hparts _ (List.mem_append_right _ (Piece.mem_filterMap_leaf?.mp hl))
        exact hl _ (List.mem_singleton_self _)
      · rw [← List.filterMap_append]
        exact fun c hc => hparts _ (Piece.mem_filterMap_node?.mp hc)
      · exact fun _ _ => ⟨hpos ▸ Nat.le_trans hlo hle, Nat.le_refl _⟩

end

/-! ### Productions keep the order -/

/-- The children are in source order, or they are those of an object creation whose list of
arguments is misplaced. -/
def Node.Orderly (n : Node) : Prop :=
  n.InSourceOrder ∨ ∃ type arguments initializer, n.Misplaced type arguments initializer

/-- So it is for all nodes of the tree. -/
def Piece.Orderly : Piece → Prop
  | leaf _ => True
  | node n => ∀ m : Node, m.Within n → m.Orderly

theorem Piece.orderly_node {n : Node} (hn : n.Orderly) (hc : ∀ c ∈ n.children, (node c).Orderly) :
    (node n).Orderly := by
  intro m hm
  rcases Node.within_iff.mp hm with rfl | ⟨c, hmem, hm⟩
  · exact hn
  · exact hc c hmem m hm

theorem Piece.pairwise_filterMap_node? {pieces : List Piece} (h : pieces.Pairwise Precedes) :
    (pieces.filterMap node?).Pairwise fun c d => (node c).Precedes (node d) :=
  h.filterMap _ fun p q hpq c hc d hd => by
    cases p <;> cases hc
    cases q <;> cases hd
    exact hpq

/-- No parts come after an empty list that is hidden. -/
def Slot.Settled : List Slot → List (List Piece) → Prop
  | s :: slots, group :: groups =>
    (s.hidden.isSome = true → s.arity ≠ .optional → group = [] → groups.flatten = []) ∧
      Settled slots groups
  | _, _ => True

/-- Attached parts come first. -/
def Product.attachedFirst (product : Product) : Bool :=
  decide (product.slots.Pairwise fun s t => t.attached = true → s.attached = true)

theorem Production.attachedFirst (p : Production) : p.product.attachedFirst = true := by
  cases p with
  | boolLiteral value => cases value <;> rfl
  | objectCreation called filled => cases called <;> cases filled <;> rfl
  | subpattern name => cases name <;> rfl
  | joinClause name into typed => cases typed <;> rfl
  | _ => rfl

/-- No slot comes after a hidden list. -/
def Product.closed (product : Product) : Bool :=
  decide (product.slots.Pairwise fun s _ => s.hidden.isSome = true → s.arity = .optional)

/-- Only an object creation has parts after a hidden list. -/
theorem Production.closed_or (p : Production) :
    p.product.closed = true ∨ p = .objectCreation true true := by
  cases p with
  | boolLiteral value => cases value <;> exact .inl rfl
  | objectCreation called filled =>
      cases called <;> cases filled <;> first | exact .inl rfl | exact .inr rfl
  | subpattern name => cases name <;> exact .inl rfl
  | joinClause name into typed => cases typed <;> exact .inl rfl
  | _ => exact .inl rfl

theorem Slot.FillsAll.settled {slots : List Slot} {groups : List (List Piece)}
    {attached inner : List Piece} {w w' : Workshop}
    (h : FillsAll slots groups w attached inner w')
    (hs : slots.Pairwise fun s _ => s.hidden.isSome = true → s.arity = .optional) :
    Settled slots groups := by
  induction h with
  | nil w => trivial
  | attached _ _ _ ht ih | inner _ _ _ ht ih =>
      rw [List.pairwise_cons] at hs
      refine ⟨fun hh ho _ => ?_, ih hs.2⟩
      cases ht with
      | nil => rfl
      | attached | inner => exact absurd (hs.1 _ List.mem_cons_self hh) ho

section

variable {s : Slot} {slots : List Slot} {group : List Piece} {groups : List (List Piece)}
  {parts attached inner : List Piece} {w v w' : Workshop}

theorem Slot.Fills.pairwise (h : s.Fills group w parts v) (hp : group.Pairwise Piece.Precedes) :
    parts.Pairwise Piece.Precedes := by
  cases h with
  | «open» => exact hp
  | absent => exact .nil
  | hidden => exact List.pairwise_singleton _ _

/-- The parts of one slot stand before those of the slots after it. -/
theorem Slot.Fills.precedes (h : s.Fills group w parts v)
    (ht : FillsAll slots groups v attached inner w') (ha : s.admits group = true)
    (hs : s.sound = true) (hslots : slots.all Slot.sound = true)
    (hsettled : Settled (s :: slots) (group :: groups))
    (hp : (group :: groups).flatten.Pairwise Piece.Precedes)
    (hg : ∀ p ∈ (group :: groups).flatten, p.Between 0 w.nextPos) :
    ∀ p ∈ parts, ∀ q ∈ attached ++ inner, p.Precedes q := by
  rw [List.flatten_cons, List.pairwise_append] at hp
  rw [List.flatten_cons, List.forall_mem_append] at hg
  intro p hpart q hq r hr z hz
  -- All that comes into the slots after this one starts behind `r`, hence all that comes out does.
  have hrest : ∀ y ∈ groups.flatten, y.Between r.stop w.nextPos := fun y hy x hx => by
    refine ⟨?_, (hg.2 y hy x hx).2⟩
    have hbefore : ∀ p ∈ parts, p.Between 0 x.pos := h.between ha hs
      (fun p hm r hr => ⟨Nat.zero_le _, hp.2.2 p hm y hy r hr x hx⟩) fun hh ho hnil => by
        rw [hsettled.1 hh ho hnil] at hy
        cases hy
    exact (hbefore p hpart r hr).2
  have hstop : r.stop ≤ w.nextPos :=
    (h.between ha hs hg.1 (fun _ _ _ => ⟨Nat.zero_le _, Nat.le_refl _⟩) p hpart r hr).2
  have hpos : v.nextPos = w.nextPos := h.leaves_subset.2.2
  exact (ht.between hslots hrest ⟨hpos ▸ hstop, Nat.le_of_eq hpos⟩ q hq z hz).1

/-- **Settled parts stand one after the other.** -/
theorem Slot.FillsAll.pairwise (h : FillsAll slots groups w attached inner w')
    (hs : slots.all Slot.sound = true)
    (hfirst : slots.Pairwise fun s t => t.attached = true → s.attached = true)
    (hsettled : Settled slots groups) (hp : groups.flatten.Pairwise Piece.Precedes)
    (hg : ∀ p ∈ groups.flatten, p.Between 0 w.nextPos) :
    (attached ++ inner).Pairwise Piece.Precedes := by
  induction h with
  | nil w => exact .nil
  | attached _ ha h ht ih =>
      rw [List.all_cons, Bool.and_eq_true] at hs
      have hcross := h.precedes ht ha hs.1 hs.2 hsettled hp hg
      rw [List.flatten_cons, List.pairwise_append] at hp
      rw [List.flatten_cons, List.forall_mem_append, ← h.leaves_subset.2.2] at hg
      rw [List.append_assoc, List.pairwise_append]
      exact ⟨h.pairwise hp.1, ih hs.2 (List.pairwise_cons.mp hfirst).2 hsettled.2 hp.2.1 hg.2,
        hcross⟩
  | inner hatt ha h ht ih =>
      -- After a slot whose parts are not attached there is none whose parts are.
      rw [List.all_cons, Bool.and_eq_true] at hs
      rw [List.pairwise_cons] at hfirst
      have hcross := h.precedes ht ha hs.1 hs.2 hsettled hp hg
      have hnone := ht.attached_eq_nil fun t hm => by
        cases hattached : t.attached with
        | false => rfl
        | true => exact absurd (hfirst.1 t hm hattached) (by simp [hatt])
      subst hnone
      rw [List.flatten_cons, List.pairwise_append] at hp
      rw [List.flatten_cons, List.forall_mem_append, ← h.leaves_subset.2.2] at hg
      rw [List.nil_append, List.pairwise_append]
      exact ⟨h.pairwise hp.1, ih hs.2 hfirst.2 hsettled.2 hp.2.1 hg.2, hcross⟩

/-- What a slot makes of trees in order is in order. -/
theorem Slot.Fills.orderly (h : s.Fills group w parts v) (hp : group.Pairwise Piece.Precedes)
    (ho : ∀ p ∈ group, p.Orderly) : ∀ p ∈ parts, p.Orderly := by
  cases h with
  | «open» => exact ho
  | absent => nofun
  | hidden _ _ hn =>
      obtain ⟨range, -, rfl, -⟩ := Build.run_node_eq_ok hn
      refine List.forall_mem_singleton.mpr (Piece.orderly_node (.inl ?_) fun c hc => ?_)
      · exact Piece.pairwise_filterMap_node? hp
      · exact ho _ (Piece.mem_filterMap_node?.mp hc)

theorem Slot.Fills.eq_of_open (h : s.Fills group w parts v) (hh : s.hidden = none) :
    group = parts ∧ w = v := by
  cases h with
  | «open» => exact ⟨rfl, rfl⟩
  | absent he | hidden he => rw [hh] at he; cases he

/-- A list that is hidden makes a node, even when it is empty. -/
theorem Slot.Fills.exists_node {kind : Kind} (h : s.Fills group w parts v)
    (hh : s.hidden = some kind) (ho : s.arity ≠ .optional) :
    ∃ n, parts = [.node n] ∧
      (Build.node kind [] (group.filterMap Piece.node?) 0).run w = .ok (n, v) := by
  cases h with
  | «open» he => rw [hh] at he; cases he
  | absent _ ha => exact absurd ha ho
  | hidden he _ hn =>
      rw [hh] at he
      cases he
      exact ⟨_, rfl, hn⟩

/-- An empty list of arguments is put after the initializer that follows it. -/
theorem Slot.FillsAll.exists_misplaced
    (h : FillsAll [.one .type, (Slot.many .argument).within .argumentList,
      (Slot.many .expression).within .initializerExpression] groups w attached inner w')
    (hsettled : ¬ Settled [.one .type, (Slot.many .argument).within .argumentList,
      (Slot.many .expression).within .initializerExpression] groups)
    (hp : groups.flatten.Pairwise Piece.Precedes)
    (hg : ∀ p ∈ groups.flatten, p.Between 0 w.nextPos) :
    attached = [] ∧ ∃ type arguments initializer : Node,
      inner.filterMap Piece.node? = [type, arguments, initializer] ∧
      ∀ label : Label, label.kind = .objectCreationExpression →
        (Node.mk label [type, arguments, initializer]).Misplaced type arguments initializer := by
  -- The slots are filled one by one: with the type, and with two nodes that hide lists.
  cases h with
  | attached hatt => cases hatt
  | @inner _ _ types groups _ _ _ _ _ _ _ hatypes htypes h =>
  cases h with
  | attached hatt => cases hatt
  | @inner _ _ arguments groups _ _ _ _ _ _ _ _ harguments h =>
  cases h with
  | attached hatt => cases hatt
  | @inner _ _ expressions groups _ _ _ _ _ _ _ haexpressions hexpressions h =>
  cases h
  obtain ⟨rfl, hne⟩ : arguments = [] ∧ expressions ≠ [] := by
    by_contra hno
    refine hsettled ⟨fun hh => absurd hh (by decide), fun _ _ hnil => ?_, fun _ _ _ => rfl, trivial⟩
    by_contra hne
    exact hno ⟨hnil, fun e => hne (by simp [e])⟩
  obtain ⟨type, rfl⟩ : ∃ type, types = [.node type] := by
    obtain ⟨ns, rfl⟩ := Slot.exists_nodes hatypes (by decide)
    obtain ⟨type, rfl⟩ : ∃ type, ns = [type] :=
      List.length_eq_one_iff.mp (by simpa [Slot.one, Arity.admits] using (admits_iff.mp hatypes).1)
    exact ⟨type, rfl⟩
  obtain ⟨rfl, rfl⟩ := htypes.eq_of_open rfl
  obtain ⟨list, rfl, hlist⟩ := harguments.exists_node rfl (by decide)
  obtain ⟨range, hr, rfl, rfl⟩ := Build.run_node_eq_ok hlist
  simp only [List.filterMap_nil, List.map_nil, List.append_nil, Range.span?, Option.some_inj,
    List.flatten_cons, List.flatten_nil, List.nil_append, List.singleton_append,
    List.pairwise_cons, List.forall_mem_cons] at hr hp hg
  subst hr
  -- The expressions lie between the type and the list, hence so does the initializer.
  have hbetween : ∀ p ∈ expressions, p.Between type.range.stop w.nextPos := fun p hm r hr =>
    ⟨hp.1 p hm _ (Piece.range_mem_ranges (.refl type)) r hr, (hg.2 p hm r hr).2⟩
  have hparts := hexpressions.between haexpressions rfl hbetween fun _ _ hnil => absurd hnil hne
  obtain ⟨initializer, rfl, hinitializer⟩ := hexpressions.exists_node rfl (by decide)
  have hplace := (Piece.between_node_iff.mp (List.forall_mem_singleton.mp hparts)).1
  have htype := (Piece.between_node_iff.mp hg.1).1
  refine ⟨rfl, type, _, initializer, rfl, fun label hk => ⟨hk, rfl, rfl, rfl, ?_,
    ⟨htype.2, hplace.1⟩, w.nextPos, rfl, hplace.2⟩⟩
  obtain ⟨ns, rfl⟩ := Slot.exists_nodes haexpressions (by decide)
  obtain ⟨-, -, rfl, -⟩ := Build.run_node_eq_ok hinitializer
  rw [filterMap_node?_map_node]
  rintro rfl
  exact hne rfl

/-- A node whose parts stand one after the other is in order, or its list is misplaced. -/
theorem Production.orderly_of_makes {p : Production} {piece : Piece} (ha : p.Allowed)
    (h : p.product.Makes groups w piece w') (hp : groups.flatten.Pairwise Piece.Precedes)
    (hg : ∀ p ∈ groups.flatten, p.Between 0 w.nextPos)
    (ho : ∀ p ∈ groups.flatten, p.Orderly) : piece.Orderly := by
  have hfollows := Production.follows ha
  have hfirst := p.attachedFirst
  have hclosed := p.closed_or
  generalize hprod : p.product = product at h hfollows hfirst hclosed
  cases h with
  | leaf => trivial
  | word h | covering _ h =>
      obtain ⟨rfl, -⟩ := Build.run_bareNode_eq_ok h
      exact Piece.orderly_node (.inl .nil) nofun
  | @node kind spellings slots _ _ _ _ _ _ _ _ _ _ hw hf h =>
      simp only [Product.follows, Product.attachedFirst, Product.closed, Bool.and_eq_true,
        decide_eq_true_eq] at hfollows hfirst hclosed
      have hle := hw.nextPos_le
      have hg : ∀ p ∈ groups.flatten, p.Between 0 _ := fun p hm r hr =>
        ⟨Nat.zero_le _, Nat.le_trans (hg p hm r hr).2 hle⟩
      obtain ⟨range, -, rfl, -⟩ := Build.run_node_eq_ok h
      refine Piece.orderly_node ?_ fun c hc => ?_
      -- Only an object creation hides a list behind which its own parts still follow.
      · by_cases hsettled : Slot.Settled slots groups
        · have hpairwise := hf.pairwise hfollows.1.1 hfirst hsettled hp hg
          refine .inl ?_
          rw [Node.InSourceOrder, Node.withFirst, Node.children, ← List.filterMap_append]
          exact Piece.pairwise_filterMap_node? hpairwise
        · obtain hclosed | rfl := hclosed
          · exact absurd (hf.settled hclosed) hsettled
          · cases hprod
            obtain ⟨rfl, type, arguments, initializer, hchildren, hmisplaced⟩ :=
              hf.exists_misplaced hsettled hp hg
            rw [hchildren]
            exact .inr ⟨type, arguments, initializer, hmisplaced _ rfl⟩
      · rw [Node.withFirst, Node.children, ← List.filterMap_append] at hc
        refine hf.forall_parts (fun s _ group hgroup _ _ _ _ _ hf => ?_) _
          (Piece.mem_filterMap_node?.mp hc)
        exact hf.orderly (hp.sublist (List.sublist_flatten_of_mem hgroup)) fun p hm =>
          ho p (List.mem_flatten_of_mem hgroup hm)

end

/-! ### Evaluation keeps the order -/

open Build (Ends ends_iff)

/-- The pieces in hand stand one after the other and before the position to come, their trees are
in order, and no node of them is inverted. -/
structure Workshop.Sorted (w : Workshop) (hand : List Piece) : Prop where
  precedes : hand.Pairwise Piece.Precedes
  between : ∀ p ∈ hand, p.Between 0 w.nextPos
  orderly : ∀ p ∈ hand, p.Orderly
  upright : ∀ p ∈ hand, p.Upright

theorem Production.ends_build_sorted {p : Production} {groups : List (List Piece)}
    {hand : List Piece} {w : Workshop} (h : w.Sorted (hand ++ groups.flatten)) :
    Ends (p.build groups) w (fun piece w' => w'.Sorted (hand ++ [piece])) (fun _ => True) := by
  refine ends_iff.mpr ⟨fun piece w' hr => ?_, fun _ _ => trivial⟩
  obtain ⟨ha, hm⟩ := makes_of_run hr
  obtain ⟨hhand, hgroups, hcross⟩ := List.pairwise_append.mp h.precedes
  obtain ⟨hold, hg⟩ := List.forall_mem_append.mp h.between
  obtain ⟨hohand, hogroups⟩ := List.forall_mem_append.mp h.orderly
  obtain ⟨huhand, hugroups⟩ := List.forall_mem_append.mp h.upright
  have hf := Production.follows ha
  refine ⟨List.pairwise_append.mpr ⟨hhand, List.pairwise_singleton _ _, ?_⟩, ?_, ?_, ?_⟩
  -- A piece in hand ends before all the parts, and the new piece starts where they do.
  · refine fun q hq => List.forall_mem_singleton.mpr fun r hr => ?_
    have hafter := hm.between hf (hold q hq r hr).2 fun p hmem t ht =>
      ⟨hcross q hq p hmem r hr t ht, (hg p hmem t ht).2⟩
    exact fun t ht => (hafter t ht).1
  · exact List.forall_mem_append.mpr ⟨fun q hq r hr =>
      ⟨Nat.zero_le _, Nat.le_trans (hold q hq r hr).2 hm.nextPos_le⟩,
      List.forall_mem_singleton.mpr (hm.between hf (Nat.zero_le _) hg)⟩
  · exact List.forall_mem_append.mpr ⟨hohand,
      List.forall_mem_singleton.mpr (orderly_of_makes ha hm hgroups hg hogroups)⟩
  · exact List.forall_mem_append.mpr ⟨huhand,
      List.forall_mem_singleton.mpr (hm.upright hugroups)⟩

/-- The form is built of productions and chains alone. -/
def Form.Nested (form : Form) : Prop :=
  ∀ f ∈ form.subforms, (∀ place, f ≠ .take place) ∧ ∀ times wrapper inner,
    f ≠ .nest times wrapper inner

/-- **Evaluation from left to right keeps the pieces in order.** -/
theorem sorted_keeps : Form.Keeps
    (fun f => (∀ place, f ≠ .take place) ∧ ∀ times wrapper inner, f ≠ .nest times wrapper inner)
    Workshop.Sorted (fun _ => True) where
  take hok _ := absurd rfl (hok.1 _)
  make _ h := Production.ends_build_sorted h
  join h := Production.ends_build_sorted h
  wrap hok _ := absurd rfl (hok.2 _ _ _)
  emptyChain := trivial

theorem Form.sorted_of_run {form : Form} (hform : form.Nested) {v v' : Workshop} {piece : Piece}
    (run : form.eval.run v = .ok (piece, v')) : v'.Sorted [piece] :=
  (sorted_keeps.eval [] hform ⟨.nil, nofun, nofun, nofun⟩).of_ok run

/-- **Children are in source order, but for misplaced lists of arguments.**  In every node of a
value that one form builds from left to right, consecutive children stand one after the other,
unless the node is an object creation with an empty list of arguments in front of an initializer.
There they do not, if there is text in the initializer: they do exactly when the initializer has the
empty range of the list.  The ranges of siblings never overlap, and the preorder of a tree without
such a node is the order of the text. -/
theorem Form.inSourceOrder_of_run {form : Form} (hform : form.Nested) {v v' : Workshop}
    {value : Node} (run : form.eval.run v = .ok (.node value, v')) :
    (∀ n : Node, n.Within value →
      ((∀ type arguments initializer, ¬ n.Misplaced type arguments initializer) →
        n.children.IsChain Node.EndsBefore) ∧
      (∀ type arguments initializer, n.Misplaced type arguments initializer →
        initializer.range.pos < initializer.range.stop → ¬ n.children.IsChain Node.EndsBefore) ∧
      (∀ type arguments initializer, n.Misplaced type arguments initializer →
        (n.children.IsChain Node.EndsBefore ↔ initializer.range = arguments.range)) ∧
      n.children.Pairwise fun c d => c.EndsBefore d ∨ d.EndsBefore c) ∧
    ((∀ n : Node, n.Within value → ∀ type arguments initializer,
        ¬ n.Misplaced type arguments initializer) →
      value.nodes.Pairwise fun a b => b.Within a ∨ a.EndsBefore b) := by
  have sorted := sorted_of_run hform run
  have horderly : ∀ n : Node, n.Within value → n.Orderly :=
    sorted.orderly _ (List.mem_singleton_self _)
  have hupright : ∀ n : Node, n.Within value → n.range.Upright :=
    sorted.upright _ (List.mem_singleton_self _)
  refine ⟨fun n hn => ⟨fun hnone => ?_, fun _ _ _ h ht => h.not_isChain ht, ?_, ?_⟩,
    fun hnone => ?_⟩
  · obtain h | ⟨type, arguments, initializer, h⟩ := horderly n hn
    · exact h.endsBefore.isChain
    · exact absurd h (hnone _ _ _)
  · intro type arguments initializer h
    have hchild : initializer ∈ n.children := by simp [h.children]
    exact h.isChain_iff (hupright _ ((Node.within_of_mem_children hchild).trans hn))
  · obtain h | ⟨type, arguments, initializer, h⟩ := horderly n hn
    · exact h.endsBefore.imp .inl
    · rw [h.children]
      simp [h.type_endsBefore, h.initializer_endsBefore]
  · refine Node.pairwise_nodes fun n hn => ?_
    obtain h | ⟨type, arguments, initializer, h⟩ := horderly n hn
    · exact h
    · exact absurd h (hnone n hn _ _ _)

/-- In `new int() { delegate { } }` there is no text in the initializer, and the misplaced list is
in order. -/
example :
    let type : Node :=
      .mk ⟨⟨.predefinedType, 1, ⟨0, 3⟩⟩, [.token ⟨.intKeyword, 0, ⟨0, 3⟩⟩], 0⟩ []
    let body : Node := .mk ⟨⟨.block, 2, ⟨4, 4⟩⟩, [], 0⟩ []
    let method : Node := .mk ⟨⟨.anonymousMethodExpression, 3, ⟨4, 4⟩⟩, [], 0⟩ [body]
    let arguments : Node := .mk ⟨⟨.argumentList, 4, ⟨4, 4⟩⟩, [], 0⟩ []
    let initializer : Node := .mk ⟨⟨.initializerExpression, 5, ⟨4, 4⟩⟩, [], 0⟩ [method]
    let value : Node :=
      .mk ⟨⟨.objectCreationExpression, 6, ⟨0, 4⟩⟩, [], 0⟩ [type, arguments, initializer]
    (Form.make (.objectCreation true true) [[.predefinedType .intKeyword], [],
        [.make .anonymousMethod [[], []]]]).eval.run {} = .ok (.node value, ⟨7, 4, .empty, #[]⟩) ∧
      value.Misplaced type arguments initializer ∧ value.children.IsChain Node.EndsBefore :=
  ⟨rfl, ⟨rfl, rfl, rfl, rfl, by simp [Node.children], by decide, 4, rfl, by decide⟩, by decide⟩

/-- The call `this(null)`, whose list of arguments is hidden and comes last. -/
theorem Form.inSourceOrder_sampleCall : ∃ (value : Node) (w : Workshop),
    (invocation (make .thisExpression []) [make .argument [[make .nullLiteral []]]]).eval.run {} =
        .ok (.node value, w) ∧
      value.children.IsChain Node.EndsBefore ∧
      value.nodes.Pairwise fun a b => b.Within a ∨ a.EndsBefore b := by
  let callee : Node := .mk ⟨⟨.thisExpression, 1, ⟨0, 4⟩⟩, [], 0⟩ []
  let null : Node :=
    .mk ⟨⟨.nullLiteralExpression, 3, ⟨5, 9⟩⟩, [.token ⟨.nullKeyword, 2, ⟨5, 9⟩⟩], 0⟩ []
  let argument : Node := .mk ⟨⟨.argument, 4, ⟨5, 9⟩⟩, [], 0⟩ [null]
  let arguments : Node := .mk ⟨⟨.argumentList, 5, ⟨5, 9⟩⟩, [], 0⟩ [argument]
  let value : Node := .mk ⟨⟨.invocationExpression, 6, ⟨0, 9⟩⟩, [], 0⟩ [callee, arguments]
  have hform : (invocation (make .thisExpression [])
      [make .argument [[make .nullLiteral []]]]).Nested := by
    simp [Nested, invocation, subforms, subformsAll, subformsGroups]
  have run : (invocation (make .thisExpression [])
      [make .argument [[make .nullLiteral []]]]).eval.run {} =
        .ok (.node value, ⟨7, 10, .empty, #[]⟩) := rfl
  have hnone : ∀ n : Node, n.Within value → ∀ t a i, ¬ n.Misplaced t a i := by
    intro n hn t a i h
    have hmem : n ∈ [value, callee, arguments, argument, null] := Node.mem_nodes.mpr hn
    have hkind := h.kind
    simp only [List.mem_cons, List.not_mem_nil, or_false] at hmem
    rcases hmem with rfl | rfl | rfl | rfl | rfl <;> cases hkind
  obtain ⟨hnodes, hpreorder⟩ := inSourceOrder_of_run hform run
  exact ⟨value, _, run, (hnodes value (.refl value)).1 (hnone value (.refl value)),
    hpreorder hnone⟩

/-- In `new int() { null }` the list of arguments is listed before the initializer, and it stands
after it. -/
theorem Form.not_forall_isChain : ¬ ∀ (form : Form), form.Nested →
    ∀ (v v' : Workshop) (value : Node), form.eval.run v = .ok (.node value, v') →
      ∀ n : Node, n.Within value → n.children.IsChain Node.EndsBefore := by
  let type : Node :=
    .mk ⟨⟨.predefinedType, 1, ⟨0, 3⟩⟩, [.token ⟨.intKeyword, 0, ⟨0, 3⟩⟩], 0⟩ []
  let null : Node :=
    .mk ⟨⟨.nullLiteralExpression, 3, ⟨4, 8⟩⟩, [.token ⟨.nullKeyword, 2, ⟨4, 8⟩⟩], 0⟩ []
  let arguments : Node := .mk ⟨⟨.argumentList, 4, ⟨9, 9⟩⟩, [], 0⟩ []
  let initializer : Node := .mk ⟨⟨.initializerExpression, 5, ⟨4, 8⟩⟩, [], 0⟩ [null]
  let value : Node :=
    .mk ⟨⟨.objectCreationExpression, 6, ⟨0, 9⟩⟩, [], 0⟩ [type, arguments, initializer]
  have hform : (make (.objectCreation true true)
      [[predefinedType .intKeyword], [], [make .nullLiteral []]]).Nested := by
    simp [Nested, predefinedType, subforms, subformsAll, subformsGroups]
  have misplaced : value.Misplaced type arguments initializer :=
    ⟨rfl, rfl, rfl, rfl, nofun, by decide, 9, rfl, by decide⟩
  intro h
  exact misplaced.not_isChain (by decide) (h _ hform {} _ value rfl value (.refl value))

end InlineLocals
