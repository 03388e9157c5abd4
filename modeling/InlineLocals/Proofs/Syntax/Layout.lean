import InlineLocals.Proofs.Syntax.Identity

/-!
# Syntax — Layout

Where leaves stand.  A leaf takes the next id and the next stretch of text together, and one
position is left free after it, so of any two leaves the one with the smaller id ends before the
other starts (`Workshop.Laid`).  Productions move leaves about but never write one twice, and
`laid_invariant` carries the layout to all leaves of a workshop.

Hence a leaf is known by where it starts, and the node that holds it by the leaf
(`Workshop.Holds.eq_of_pos_eq`).
-/

namespace InlineLocals

/-! ### The leaves of a tree -/

/-- The leaves that the node and the nodes below it hold. -/
def Node.allLeaves (n : Node) : List Leaf := n.nodes.flatMap leaves

/-- The leaves of a tree: those of the root, and those below. -/
theorem Node.allLeaves_eq (n : Node) :
    n.allLeaves = n.leaves ++ n.children.flatMap allLeaves := by
  rw [allLeaves, nodes_eq, List.flatMap_cons, List.flatMap_assoc]
  rfl

theorem Node.mem_allLeaves {n m : Node} {l : Leaf} (hm : m.Within n) (hl : l ∈ m.leaves) :
    l ∈ n.allLeaves :=
  List.mem_flatMap.mpr ⟨m, mem_nodes.mpr hm, hl⟩

namespace Piece

/-- The leaves of a piece. -/
def leaves : Piece → List Leaf
  | leaf l => [l]
  | node n => n.allLeaves

/-- A piece that is a leaf is one of its leaves. -/
theorem filterMap_leaf?_subset (pieces : List Piece) :
    pieces.filterMap leaf? ⊆ pieces.flatMap leaves := by
  intro l hl
  exact List.mem_flatMap.mpr ⟨.leaf l, mem_filterMap_leaf?.mp hl, List.mem_singleton_self l⟩

/-- The leaves of nodes among the pieces are leaves of the pieces. -/
theorem flatMap_node?_subset (pieces : List Piece) :
    (pieces.filterMap node?).flatMap Node.allLeaves ⊆ pieces.flatMap leaves := by
  intro l hl
  obtain ⟨n, hn, hl⟩ := List.mem_flatMap.mp hl
  exact List.mem_flatMap.mpr ⟨.node n, mem_filterMap_node?.mp hn, hl⟩

end Piece

/-! ### Layouts -/

/-- The leaves have been written: with smaller ids and on earlier positions than those to come,
and of any two of them the one with the smaller id ends before the other starts. -/
structure Workshop.Laid (w : Workshop) (leaves : List Leaf) : Prop where
  id_lt : ∀ l ∈ leaves, l.info.id < w.nextId
  upright : ∀ l ∈ leaves, l.range.Upright
  stop_lt : ∀ l ∈ leaves, l.range.stop < w.nextPos
  apart : ∀ l ∈ leaves, ∀ l' ∈ leaves, l.info.id < l'.info.id → l.range.stop < l'.range.pos

namespace Workshop.Laid

variable {w v : Workshop} {leaves : List Leaf}

/-- Fewer leaves are laid out as well. -/
theorem mono (h : w.Laid leaves) {fewer : List Leaf} (hs : fewer ⊆ leaves) : w.Laid fewer where
  id_lt l hl := h.id_lt l (hs hl)
  upright l hl := h.upright l (hs hl)
  stop_lt l hl := h.stop_lt l (hs hl)
  apart l hl l' hl' := h.apart l (hs hl) l' (hs hl')

/-- So are the same leaves in a workshop that is further on. -/
theorem advance (h : w.Laid leaves) (hid : w.nextId ≤ v.nextId) (hpos : w.nextPos ≤ v.nextPos) :
    v.Laid leaves where
  id_lt l hl := Nat.lt_of_lt_of_le (h.id_lt l hl) hid
  upright := h.upright
  stop_lt l hl := Nat.lt_of_lt_of_le (h.stop_lt l hl) hpos
  apart := h.apart

/-- A new leaf has a larger id than those there are, and starts after all of them. -/
theorem write (h : w.Laid leaves) {s : Spelling} {leaf : Leaf}
    (hs : s.write.run w = .ok (leaf, v)) : v.Laid (leaf :: leaves) := by
  obtain ⟨hid, hrange, hnext, hpos, -⟩ := Spelling.run_write_eq_ok hs
  have hnew : leaf.info.id < v.nextId := by rw [hid, hnext]; exact Nat.lt_succ_self _
  have old := h.advance (v := v) (hnext ▸ Nat.le_succ _) (by omega)
  refine ⟨List.forall_mem_cons.mpr ⟨hnew, old.id_lt⟩,
    List.forall_mem_cons.mpr ⟨?_, old.upright⟩,
    List.forall_mem_cons.mpr ⟨by rw [hrange, hpos]; exact Nat.lt_succ_self _, old.stop_lt⟩, ?_⟩
  · rw [hrange]
    exact Nat.le_add_right _ _
  · intro l hl l' hl' hlt
    rcases List.mem_cons.mp hl' with rfl | hold'
    · rcases List.mem_cons.mp hl with rfl | hold
      · exact absurd hlt (Nat.lt_irrefl _)
      · rw [hrange]
        exact h.stop_lt l hold
    · rcases List.mem_cons.mp hl with rfl | hold
      · rw [hid] at hlt
        exact absurd (h.id_lt l' hold') (Nat.lt_asymm hlt)
      · exact h.apart l hold l' hold' hlt

/-- Leaves that start together are one. -/
theorem id_eq_of_pos_eq (h : w.Laid leaves) {l l' : Leaf} (hl : l ∈ leaves) (hl' : l' ∈ leaves)
    (e : l.range.pos = l'.range.pos) : l.info.id = l'.info.id := by
  have before {k k' : Leaf} (hk : k ∈ leaves) (hk' : k' ∈ leaves)
      (he : k.range.pos = k'.range.pos) : ¬ k.info.id < k'.info.id := by
    intro hlt
    have hup : k.range.pos ≤ k.range.stop := h.upright k hk
    have := h.apart k hk k' hk' hlt
    omega
  exact Nat.le_antisymm (Nat.le_of_not_lt (before hl' hl e.symm))
    (Nat.le_of_not_lt (before hl hl' e))

end Workshop.Laid

/-- Leaves that are written come after all that there are. -/
theorem Spelling.Written.laid {spellings : List Spelling} {written : List Leaf} {w w' : Workshop}
    (h : Written spellings w written w') : ∀ {leaves : List Leaf}, w.Laid leaves →
      w'.Laid (written ++ leaves) := by
  induction h with
  | nil w => exact fun h => h
  | @cons s spellings leaf written w v w' hs _ ih =>
      intro leaves h
      refine (ih (h.write hs)).mono ?_
      rw [List.cons_append]
      exact List.perm_middle.symm.subset

/-- The parts of a slot have the leaves of its group. -/
theorem Slot.Fills.leaves_subset {s : Slot} {group parts : List Piece} {w w' : Workshop}
    (h : s.Fills group w parts w') :
    parts.flatMap Piece.leaves ⊆ group.flatMap Piece.leaves ∧ w.nextId ≤ w'.nextId ∧
      w'.nextPos = w.nextPos := by
  cases h with
  | «open» | absent => exact ⟨List.Subset.refl _, Nat.le_refl _, rfl⟩
  | hidden _ _ h =>
      obtain ⟨range, -, rfl, rfl⟩ := Build.run_node_eq_ok h
      refine ⟨?_, Nat.le_succ _, rfl⟩
      rw [List.flatMap_singleton, Piece.leaves, Node.allLeaves_eq]
      exact Piece.flatMap_node?_subset group

/-- What comes out of the slots has no other leaves than what went in. -/
theorem Slot.FillsAll.leaves_subset {slots : List Slot} {groups : List (List Piece)}
    {attached inner : List Piece} {w w' : Workshop}
    (h : FillsAll slots groups w attached inner w') :
    (attached ++ inner).flatMap Piece.leaves ⊆ groups.flatten.flatMap Piece.leaves ∧
      w.nextId ≤ w'.nextId ∧ w'.nextPos = w.nextPos := by
  induction h with
  | nil w => exact ⟨List.Subset.refl _, Nat.le_refl _, rfl⟩
  | attached _ _ h _ ih | inner _ _ h _ ih =>
      obtain ⟨hparts, hid, hpos⟩ := h.leaves_subset
      obtain ⟨hrest, hid', hpos'⟩ := ih
      refine ⟨?_, Nat.le_trans hid hid', hpos'.trans hpos⟩
      simp only [List.flatMap_append, List.flatten_cons, List.append_subset] at hrest ⊢
      grind

/-- A node that is made of parts has the leaves it was given and those of the groups. -/
theorem Slot.FillsAll.allLeaves_subset {slots : List Slot} {groups : List (List Piece)}
    {attached inner : List Piece} {v u w : Workshop} (h : FillsAll slots groups v attached inner u)
    {kind : Kind} {written : List Leaf} {rank : Nat} {n : Node}
    (hn : (Build.node kind (written ++ inner.filterMap Piece.leaf?)
      (inner.filterMap Piece.node?) rank).run u = .ok (n, w)) :
    (n.withFirst (attached.filterMap Piece.node?)).allLeaves ⊆
      written ++ groups.flatten.flatMap Piece.leaves := by
  obtain ⟨range, -, rfl, -⟩ := Build.run_node_eq_ok hn
  have hparts := h.leaves_subset.1
  have hnodes := Piece.flatMap_node?_subset attached
  have hnodes' := Piece.flatMap_node?_subset inner
  have hleaves := Piece.filterMap_leaf?_subset inner
  rw [Node.allLeaves_eq]
  simp only [Node.withFirst, Node.leaves, Node.label, Node.children, List.flatMap_append,
    List.append_subset] at hparts ⊢
  grind

theorem Build.laid_of_run_bareNode {kind : Kind} {range : Range} {w w' : Workshop} {n : Node}
    (h : (bareNode kind range).run w = .ok (n, w')) {leaves : List Leaf} (hl : w.Laid leaves) :
    n.allLeaves = [] ∧ w'.Laid leaves := by
  obtain ⟨rfl, rfl⟩ := run_bareNode_eq_ok h
  exact ⟨rfl, hl.advance (Nat.le_succ _) (Nat.le_refl _)⟩

theorem Spelling.Written.nextPos_le {spellings : List Spelling} {written : List Leaf}
    {w w' : Workshop} (h : Written spellings w written w') : w.nextPos ≤ w'.nextPos := by
  induction h with
  | nil w => exact Nat.le_refl _
  | cons hs _ ih =>
      obtain ⟨-, -, -, hpos, -⟩ := Spelling.run_write_eq_ok hs
      omega

/-- Positions are handed out once. -/
theorem Product.Makes.nextPos_le {product : Product} {groups : List (List Piece)} {piece : Piece}
    {w w' : Workshop} (h : product.Makes groups w piece w') : w.nextPos ≤ w'.nextPos := by
  cases h with
  | leaf h =>
      obtain ⟨-, -, -, hpos, -⟩ := Spelling.run_write_eq_ok h
      omega
  | word h =>
      obtain ⟨-, rfl⟩ := Build.run_bareNode_eq_ok h
      exact Nat.le_trans (Nat.le_add_right _ _) (Nat.le_succ _)
  | covering hd h =>
      obtain ⟨-, -, -, hpos, -⟩ := Spelling.run_write_eq_ok hd
      obtain ⟨-, rfl⟩ := Build.run_bareNode_eq_ok h
      show _ ≤ _
      simp only
      omega
  | node hw hf h =>
      obtain ⟨-, -, hpos⟩ := hf.leaves_subset
      obtain ⟨-, -, -, rfl⟩ := Build.run_node_eq_ok h
      exact Nat.le_trans hw.nextPos_le (Nat.le_of_eq hpos.symm)

/-- What is made has the leaves of what it is made of and new ones. -/
theorem Product.Makes.laid {product : Product} {groups : List (List Piece)} {piece : Piece}
    {w w' : Workshop} (h : product.Makes groups w piece w') {others : List Leaf}
    (hl : w.Laid (groups.flatten.flatMap Piece.leaves ++ others)) :
    w'.Laid (piece.leaves ++ others) := by
  cases h with
  | leaf h => exact hl.write h
  | word h =>
      obtain ⟨hn, hlaid⟩ := Build.laid_of_run_bareNode h
        (hl.advance (Nat.le_refl _) (Nat.le_trans (Nat.le_add_right _ _) (Nat.le_succ _)))
      rw [Piece.leaves, hn]
      exact hlaid
  | covering hd h =>
      obtain ⟨-, -, hnext, hpos, -⟩ := Spelling.run_write_eq_ok hd
      obtain ⟨hn, hlaid⟩ := Build.laid_of_run_bareNode h
        (hl.advance (hnext ▸ Nat.le_succ _) (by omega))
      rw [Piece.leaves, hn]
      exact hlaid
  | @node kind spellings slots rank groups written attached inner n w v u w' hw hf h =>
      obtain ⟨-, hid, hpos⟩ := hf.leaves_subset
      have hleaves := hf.allLeaves_subset h
      obtain ⟨range, -, rfl, rfl⟩ := Build.run_node_eq_ok h
      have hlaid := (hw.laid hl).advance (v := { u with nextId := u.nextId + 1 })
        (Nat.le_trans hid (Nat.le_succ _)) (Nat.le_of_eq hpos.symm)
      -- The node has no leaves but those written and those of its parts, attached ones included.
      refine hlaid.mono ?_
      rw [← List.append_assoc]
      exact List.append_subset.mpr
        ⟨List.Subset.trans hleaves (List.subset_append_left _ _), List.subset_append_right _ _⟩

/-- The leaves there are have been laid out. -/
theorem laid_invariant : Invariant fun w pieces => w.Laid (pieces.flatMap Piece.leaves) where
  perm hp h := h.mono (hp.symm.flatMap_right _).subset
  shelf _ h := ⟨h.id_lt, h.upright, h.stop_lt, h.apart⟩
  make _ hm h := by
    rw [List.flatMap_append] at h
    exact hm.laid h

namespace Workshop

variable {forms : List Form} {w : Workshop}

/-- The leaves of a workshop are laid out: by id they stand in the order of the text, one apart from
the other. -/
theorem laid_leaves (built : ofForms forms = .ok w) : w.Laid (w.pieces.flatMap Piece.leaves) :=
  laid_invariant.ofForms built ⟨nofun, nofun, nofun, nofun⟩

theorem Holds.mem_leaves {n : Node} {l : Leaf} (h : w.Holds n) (hl : l ∈ n.leaves) :
    l ∈ w.pieces.flatMap Piece.leaves := by
  obtain ⟨value, hv, hn⟩ := h
  exact List.mem_flatMap.mpr ⟨.node value, hv, Node.mem_allLeaves hn hl⟩

/-- **A leaf is known by where it starts**: nodes of the workshop that hold leaves at one position
are the same. -/
theorem Holds.eq_of_pos_eq (built : ofForms forms = .ok w) {m n : Node} {l l' : Leaf}
    (hm : w.Holds m) (hn : w.Holds n) (hl : l ∈ m.leaves) (hl' : l' ∈ n.leaves)
    (e : l.range.pos = l'.range.pos) : m = n := by
  have hid := (laid_leaves built).id_eq_of_pos_eq (hm.mem_leaves hl) (hn.mem_leaves hl') e
  exact hm.eq_of_leaf_id_eq built hn hl hl' hid

end Workshop

end InlineLocals
