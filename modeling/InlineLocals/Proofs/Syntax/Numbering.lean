import InlineLocals.Proofs.Syntax.Identity

/-!
# Syntax — Numbering

Ids number a tree from below.  A node takes its id when all of its parts have theirs, so on every
way down a tree the ids decrease (`Node.BottomUp`).  Productions take finished parts only, wherever
these were kept in the meantime, and `numbered_invariant` carries the order to all values of a
workshop.

A walk over the values on the shelf, from each node to its children, meets the id of every value,
node and leaf (`Workshop.metIds`).  It misses one id for each `this`, that of the token which was
written and dropped (`Workshop.droppedIds`), and no other that was handed out
(`Workshop.numbered_ofForms`).
-/

namespace InlineLocals

/-! ### Trees that are numbered from below -/

namespace Node

/-- The node has a larger id than its children and the leaves that it holds. -/
structure Tops (n : Node) : Prop where
  child : ∀ c ∈ n.children, c.id < n.id
  leaf : ∀ l ∈ n.leaves, l.info.id < n.id

/-- The node and all nodes below it have larger ids than their parts. -/
def BottomUp (n : Node) : Prop := ∀ m : Node, m.Within n → m.Tops

theorem bottomUp_of_children {n : Node} (hn : n.Tops) (h : ∀ c ∈ n.children, c.BottomUp) :
    n.BottomUp := by
  intro m hm
  rcases within_iff.mp hm with rfl | ⟨child, hc, hm⟩
  · exact hn
  · exact h child hc m hm

theorem BottomUp.within {m n : Node} (h : n.BottomUp) (hm : m.Within n) : m.BottomUp :=
  fun _ hk => h _ (hk.trans hm)

/-- What lies below a node has a smaller id. -/
theorem BottomUp.id_lt {m n : Node} (h : n.BottomUp) (hm : m.Within n) (hne : m ≠ n) :
    m.id < n.id := by
  induction n using Node.induction with
  | step n ih =>
      rcases within_iff.mp hm with rfl | ⟨child, hc, hm⟩
      · exact absurd rfl hne
      · have hchild : child.id < n.id := (h n (.refl n)).child child hc
        by_cases he : m = child
        · exact he ▸ hchild
        · exact Nat.lt_trans (ih child hc (h.within (within_of_mem_children hc)) hm he) hchild

/-- A leaf that a node below holds has a smaller id. -/
theorem BottomUp.leaf_id_lt {m n : Node} {l : Leaf} (h : n.BottomUp) (hm : m.Within n)
    (hl : l ∈ m.leaves) : l.info.id < n.id := by
  have hleaf : l.info.id < m.id := (h m hm).leaf l hl
  by_cases he : m = n
  · exact he ▸ hleaf
  · exact Nat.lt_trans hleaf (h.id_lt hm he)

end Node

/-! ### Building from below -/

/-- The id of the piece has been handed out, and so have before it the ids below. -/
def Piece.Numbered (w : Workshop) : Piece → Prop
  | leaf l => l.info.id < w.nextId
  | node n => n.id < w.nextId ∧ n.BottomUp

namespace Piece

variable {w v : Workshop}

theorem Numbered.advance {p : Piece} (h : p.Numbered w) (hid : w.nextId ≤ v.nextId) :
    p.Numbered v := by
  cases p with
  | leaf l => exact Nat.lt_of_lt_of_le h hid
  | node n => exact ⟨Nat.lt_of_lt_of_le h.1 hid, h.2⟩

end Piece

/-- A leaf that is written takes the next id. -/
theorem Spelling.numbered_of_run {s : Spelling} {leaf : Leaf} {w w' : Workshop}
    (h : s.write.run w = .ok (leaf, w')) :
    w.nextId ≤ w'.nextId ∧ (Piece.leaf leaf).Numbered w' := by
  obtain ⟨hid, -, hnext, -, -⟩ := run_write_eq_ok h
  exact ⟨hnext ▸ Nat.le_succ _, hid.trans_lt (hnext ▸ Nat.lt_succ_self _)⟩

theorem Spelling.Written.numbered {spellings : List Spelling} {written : List Leaf}
    {w w' : Workshop} (h : Written spellings w written w') :
    w.nextId ≤ w'.nextId ∧ ∀ l ∈ written, (Piece.leaf l).Numbered w' := by
  induction h with
  | nil w => exact ⟨Nat.le_refl _, nofun⟩
  | cons hs _ ih =>
      obtain ⟨hid, hleaf⟩ := numbered_of_run hs
      exact ⟨Nat.le_trans hid ih.1, List.forall_mem_cons.mpr ⟨hleaf.advance ih.1, ih.2⟩⟩

/-- A node over numbered parts takes the next id, which is larger than theirs.  So is it when more
of them are attached to it. -/
theorem Build.numbered_of_run_node {kind : Kind} {leaves : List Leaf} {children : List Node}
    {rank : Nat} {w w' : Workshop} {n : Node}
    (h : (node kind leaves children rank).run w = .ok (n, w'))
    (hl : ∀ l ∈ leaves, (Piece.leaf l).Numbered w) (first : List Node)
    (hc : ∀ c ∈ first ++ children, (Piece.node c).Numbered w) :
    w.nextId ≤ w'.nextId ∧ (Piece.node (n.withFirst first)).Numbered w' := by
  obtain ⟨range, -, rfl, rfl⟩ := run_node_eq_ok h
  refine ⟨Nat.le_succ _, Nat.lt_succ_self _, Node.bottomUp_of_children ⟨?_, hl⟩ ?_⟩
  · exact fun c hm => (hc c hm).1
  · exact fun c hm => (hc c hm).2

theorem Slot.Fills.numbered {s : Slot} {group parts : List Piece} {w w' : Workshop}
    (h : s.Fills group w parts w') (hg : ∀ p ∈ group, p.Numbered w) :
    w.nextId ≤ w'.nextId ∧ ∀ p ∈ parts, p.Numbered w' := by
  cases h with
  | «open» => exact ⟨Nat.le_refl _, hg⟩
  | absent => exact ⟨Nat.le_refl _, nofun⟩
  | @hidden kind _ _ n _ _ _ h =>
      obtain ⟨hid, hn⟩ := Build.numbered_of_run_node h nofun []
        (fun n hn => hg _ (Piece.mem_filterMap_node?.mp hn))
      refine ⟨hid, fun p hp => ?_⟩
      obtain rfl := List.mem_singleton.mp hp
      obtain ⟨label, children⟩ := n
      exact hn

theorem Slot.FillsAll.numbered {slots : List Slot} {groups : List (List Piece)}
    {attached inner : List Piece} {w w' : Workshop}
    (h : FillsAll slots groups w attached inner w') (hg : ∀ p ∈ groups.flatten, p.Numbered w) :
    w.nextId ≤ w'.nextId ∧ (∀ p ∈ attached, p.Numbered w') ∧ ∀ p ∈ inner, p.Numbered w' := by
  induction h with
  | nil w => exact ⟨Nat.le_refl _, nofun, nofun⟩
  | attached _ _ h _ ih =>
      rw [List.flatten_cons, List.forall_mem_append] at hg
      obtain ⟨hid, hparts⟩ := h.numbered hg.1
      obtain ⟨hid', hattached, hinner⟩ := ih fun p hp => (hg.2 p hp).advance hid
      exact ⟨Nat.le_trans hid hid', List.forall_mem_append.mpr
        ⟨fun p hp => (hparts p hp).advance hid', hattached⟩, hinner⟩
  | inner _ _ h _ ih =>
      rw [List.flatten_cons, List.forall_mem_append] at hg
      obtain ⟨hid, hparts⟩ := h.numbered hg.1
      obtain ⟨hid', hattached, hinner⟩ := ih fun p hp => (hg.2 p hp).advance hid
      exact ⟨Nat.le_trans hid hid', hattached, List.forall_mem_append.mpr
        ⟨fun p hp => (hparts p hp).advance hid', hinner⟩⟩

/-- What is made of numbered pieces is numbered. -/
theorem Product.Makes.numbered {product : Product} {groups : List (List Piece)} {piece : Piece}
    {w w' : Workshop} (h : product.Makes groups w piece w')
    (hg : ∀ p ∈ groups.flatten, p.Numbered w) : w.nextId ≤ w'.nextId ∧ piece.Numbered w' := by
  have bare {kind : Kind} {range : Range} {v v' : Workshop} {n : Node}
      (h : (Build.bareNode kind range).run v = .ok (n, v')) :
      v.nextId ≤ v'.nextId ∧ (Piece.node n).Numbered v' := by
    obtain ⟨rfl, rfl⟩ := Build.run_bareNode_eq_ok h
    exact ⟨Nat.le_succ _, Nat.lt_succ_self _, Node.bottomUp_of_children ⟨nofun, nofun⟩ nofun⟩
  cases h with
  | leaf h => exact Spelling.numbered_of_run h
  | word h =>
      obtain ⟨hid, hn⟩ := bare h
      exact ⟨hid, hn⟩
  | covering hd h =>
      obtain ⟨hid, -⟩ := Spelling.numbered_of_run hd
      obtain ⟨hid', hn⟩ := bare h
      exact ⟨Nat.le_trans hid hid', hn⟩
  | @node _ _ _ _ _ written attached inner n _ v u _ hw hf h =>
      obtain ⟨hid, hwritten⟩ := hw.numbered
      obtain ⟨hid', hattached, hinner⟩ := hf.numbered fun p hp => (hg p hp).advance hid
      have hleaves : ∀ l ∈ written ++ inner.filterMap Piece.leaf?, (Piece.leaf l).Numbered u :=
        List.forall_mem_append.mpr
          ⟨fun l hl => (hwritten l hl).advance hid',
            fun l hl => hinner _ (Piece.mem_filterMap_leaf?.mp hl)⟩
      have hnodes : ∀ c ∈ attached.filterMap Piece.node? ++ inner.filterMap Piece.node?,
          (Piece.node c).Numbered u :=
        List.forall_mem_append.mpr
          ⟨fun c hc => hattached _ (Piece.mem_filterMap_node?.mp hc),
            fun c hc => hinner _ (Piece.mem_filterMap_node?.mp hc)⟩
      obtain ⟨hid'', hn⟩ := Build.numbered_of_run_node h hleaves _ hnodes
      exact ⟨Nat.le_trans hid (Nat.le_trans hid' hid''), hn⟩

/-- The pieces there are have been numbered from below. -/
theorem numbered_invariant : Invariant fun w pieces => ∀ p ∈ pieces, p.Numbered w where
  perm hp h p hm := h p (hp.mem_iff.mpr hm)
  shelf _ h p hm := (h p hm).advance (Nat.le_refl _)
  make _ hm h := by
    rw [List.forall_mem_append] at h
    obtain ⟨hid, hp⟩ := hm.numbered h.1
    exact List.forall_mem_cons.mpr ⟨hp, fun p hm => (h.2 p hm).advance hid⟩

/-! ### The token of `this` -/

namespace Production

theorem eq_thisExpression_of_product {p : Production} {kind token : Kind}
    (h : p.product = .covering kind token) : p = .thisExpression ∧ token = .thisKeyword := by
  cases p with
  | thisExpression => cases h; exact ⟨rfl, rfl⟩
  | boolLiteral value => cases value <;> cases h
  | subpattern name => cases name <;> cases h
  | _ => cases h

/-- The id that is missing at a `this` is that of the token it was made from.  At a node of another
production no id is missing. -/
theorem droppedIds_of_run {p : Production} {groups : List (List Piece)} {n : Node}
    {w w' : Workshop} (h : (p.build groups).run w = .ok (.node n, w')) :
    (p = .thisExpression ∧ ∃ token v, (Spelling.fixed .thisKeyword).write.run w = .ok (token, v) ∧
      n.droppedIds = [token.info.id]) ∨ (p ≠ .thisExpression ∧ n.droppedIds = []) := by
  obtain ⟨ha, hm⟩ := makes_of_run h
  have hs := Production.sparing ha
  have spared {kind : Kind} (hk : kind ≠ .thisExpression) (hn : n.kind = kind) :
      n.droppedIds = [] := by rw [Node.droppedIds, if_neg (hn ▸ hk)]
  generalize hprod : p.product = product at hm hs
  cases hm with
  | word h =>
      obtain ⟨rfl, -⟩ := Build.run_bareNode_eq_ok h
      have hp : p ≠ .thisExpression := by rintro rfl; cases hprod
      exact .inr ⟨hp, spared (bne_iff_ne.mp hs) rfl⟩
  -- The token took the id before that of its node, so the missing id is read off the node.
  | @covering _ _ dropped _ _ v _ hd h =>
      obtain ⟨rfl, rfl⟩ := eq_thisExpression_of_product hprod
      cases hprod
      obtain ⟨hid, -, hnext, -, -⟩ := Spelling.run_write_eq_ok hd
      obtain ⟨rfl, -⟩ := Build.run_bareNode_eq_ok h
      refine .inl ⟨rfl, dropped, v, hd, ?_⟩
      simp [Node.droppedIds, Node.kind, Node.id, Node.label, hid, hnext]
  | node _ _ h =>
      obtain ⟨range, -, rfl, -⟩ := Build.run_node_eq_ok h
      have hp : p ≠ .thisExpression := by rintro rfl; cases hprod
      exact .inr ⟨hp, spared (bne_iff_ne.mp hs) rfl⟩

end Production

/-! ### All ids of a workshop -/

/-- The ids that a walk from the piece to its children meets: those of the nodes and of the leaves
that they hold. -/
def Piece.metIds : Piece → List NodeId
  | leaf l => [l.info.id]
  | node n => n.nodes.flatMap Node.ownIds

namespace Workshop

/-- The ids that a walk over all values meets. -/
def metIds (w : Workshop) : List NodeId := w.pieces.flatMap Piece.metIds

/-- The ids of the tokens that were dropped, one for each `this`. -/
def droppedIds (w : Workshop) : List NodeId := w.nodes.flatMap Node.droppedIds

/-- The walk leaves out the dropped tokens of what was spent. -/
theorem perm_metIds (w : Workshop) :
    (w.metIds ++ w.droppedIds).Perm (w.pieces.flatMap Piece.spentIds) := by
  have hpiece : ∀ pieces : List Piece, (pieces.flatMap Piece.metIds ++
      ((pieces.filterMap Piece.node?).flatMap Node.nodes).flatMap Node.droppedIds).Perm
        (pieces.flatMap Piece.spentIds) := by
    intro pieces
    induction pieces with
    | nil => exact .refl _
    | cons p pieces ih =>
        cases p with
        | leaf l => exact ih.cons _
        | node n =>
            have hn := List.flatMap_append_perm n.nodes Node.ownIds Node.droppedIds
            refine List.perm_iff_count.mpr fun k => ?_
            have h₁ := List.perm_iff_count.mp ih k
            have h₂ := List.perm_iff_count.mp hn k
            simp only [List.flatMap_cons, List.filterMap_cons, Piece.node?, Piece.metIds,
              Piece.spentIds, Node.spentIds, List.flatMap_append, List.count_append] at h₁ h₂ ⊢
            omega
  exact hpiece w.pieces

/-- How the ids of a workshop are spread over its values. -/
structure Numbered (w : Workshop) : Prop where
  /-- The walk over all values and the dropped tokens have between them just the ids that were
  handed out, each of them once. -/
  complete : (w.metIds ++ w.droppedIds).Perm (List.range w.nextId)
  id_lt : ∀ n m : Node, w.Holds n → m.Within n → m ≠ n → m.id < n.id
  leaf_id_lt : ∀ (n m : Node) (l : Leaf), w.Holds n → m.Within n → l ∈ m.leaves → l.info.id < n.id

theorem Holds.bottomUp {forms : List Form} {w : Workshop} {n : Node}
    (built : ofForms forms = .ok w) (h : w.Holds n) : n.BottomUp := by
  obtain ⟨value, hv, hn⟩ := h
  have hvalue := numbered_invariant.ofForms built nofun (.node value) hv
  exact hvalue.2.within hn

/-- **Ids are complete, unique and bottom-up.**  The ids that are met nowhere are those of the
tokens that the calls of `this` dropped, one for each of them. -/
theorem numbered_ofForms {forms : List Form} {w : Workshop} (built : ofForms forms = .ok w) :
    w.Numbered ∧ ∀ p groups v v' n, (Production.build p groups).run v = .ok (.node n, v') →
      (p = .thisExpression ∧ ∃ token u, (Spelling.fixed .thisKeyword).write.run v = .ok (token, u) ∧
        n.droppedIds = [token.info.id]) ∨ (p ≠ .thisExpression ∧ n.droppedIds = []) := by
  refine ⟨⟨w.perm_metIds.trans (perm_spentIds built), ?_, ?_⟩, fun p groups v v' n h => ?_⟩
  · exact fun n m hn hm hne => (hn.bottomUp built).id_lt hm hne
  · exact fun n m l hn hm hl => (hn.bottomUp built).leaf_id_lt hm hl
  · exact Production.droppedIds_of_run h

end Workshop

/-! ### The expression `!this` -/

def sampleThis : Node := .mk ⟨⟨.thisExpression, 1, ⟨0, 4⟩⟩, [], 0⟩ []

def sampleNegation : Node :=
  .mk ⟨⟨.prefixUnaryExpression, 3, ⟨0, 6⟩⟩, [.token ⟨.exclamationToken, 2, ⟨5, 6⟩⟩], 0⟩
    [sampleThis]

/-- The operand is built first and taken from the shelf for the negation. -/
def sampleNegationForms : List Form :=
  [.make .thisExpression [], .make (.prefixUnary .exclamationToken) [[.take 0]]]

def sampleNegationWorkshop : Workshop := ⟨4, 7, .empty, #[none, some (.node sampleNegation)]⟩

theorem ofForms_sampleNegationForms :
    Workshop.ofForms sampleNegationForms = .ok sampleNegationWorkshop :=
  rfl

/-- The walk meets the negation with its token, and then `this`. -/
theorem numbered_sampleNegation :
    Workshop.ofForms sampleNegationForms = .ok sampleNegationWorkshop ∧
      sampleNegationWorkshop.metIds = [2, 3, 1] ∧ sampleNegationWorkshop.droppedIds = [0] ∧
      sampleNegationWorkshop.Numbered :=
  ⟨ofForms_sampleNegationForms, by decide, by decide,
    (Workshop.numbered_ofForms ofForms_sampleNegationForms).1⟩

end InlineLocals
