import InlineLocals.Proofs.Syntax.Shape
import Mathlib.Data.List.Flatten
import Mathlib.Data.List.Nodup
import Mathlib.Data.List.Pairwise

/-!
# Syntax — Identity

Every id is spent once.  A node has an id of its own and those of its leaves (`Node.ownIds`), and
`this` has spent one more on a token that is dropped (`Node.droppedIds`).  A production makes a
piece out of the ids of the pieces it takes and of ids that nobody had before
(`Product.Makes.spends`), so the pieces of a workshop have between them just the ids that were
handed out, each once (`Workshop.perm_spentIds`).

Hence a node that a workshop holds is known by its id (`Workshop.Holds.eq_of_id_eq`).
-/

namespace InlineLocals

/-- Lists that are free of repetition together have no element in common. -/
theorem eq_of_nodup_flatMap {α β : Type} {f : α → List β} {as : List α}
    (h : (as.flatMap f).Nodup) {a b : α} {x : β} (ha : a ∈ as) (hb : b ∈ as) (hxa : x ∈ f a)
    (hxb : x ∈ f b) : a = b := by
  have hp := (List.nodup_flatMap.mp h).2
  have : Std.Symm (Function.onFun List.Disjoint f) := ⟨fun _ _ h _ hb ha => h ha hb⟩
  by_contra hne
  exact hp.forall ha hb hne hxa hxb

namespace Node

/-! ### The ids of a tree -/

/-- The ids of the leaves that a node holds, and its own. -/
def ownIds (n : Node) : List NodeId := n.leaves.map (·.info.id) ++ [n.id]

/-- The id of the token that was dropped for the node, which is handed out just before the node's
own. -/
def droppedIds (n : Node) : List NodeId :=
  if n.kind = .thisExpression then [n.id - 1] else []

/-- The ids spent on a tree. -/
def spentIds (n : Node) : List NodeId := n.nodes.flatMap fun m => m.ownIds ++ m.droppedIds

/-- A tree has spent its own ids, those that were dropped for it, and those below. -/
theorem spentIds_eq (n : Node) :
    n.spentIds = n.ownIds ++ n.droppedIds ++ n.children.flatMap spentIds := by
  rw [spentIds, nodes_eq, List.flatMap_cons, List.flatMap_assoc]
  rfl

theorem spentIds_withFirst (n : Node) (first : List Node) : (n.withFirst first).spentIds =
    n.ownIds ++ n.droppedIds ++ (first ++ n.children).flatMap spentIds := by
  cases n
  exact spentIds_eq _

/-- The ids of its nodes are among them. -/
theorem sublist_spentIds (n : Node) : (n.nodes.map id).Sublist n.spentIds := by
  rw [List.map_eq_flatMap, spentIds]
  exact .flatMap_right _ fun m _ => List.singleton_sublist.mpr (by simp [ownIds])

end Node

/-- The ids spent on a piece. -/
def Piece.spentIds : Piece → List NodeId
  | leaf l => [l.info.id]
  | node n => n.spentIds

theorem Piece.count_spentIds (k : NodeId) (pieces : List Piece) :
    (pieces.flatMap spentIds).count k =
      ((pieces.filterMap leaf?).map (·.info.id)).count k +
        ((pieces.filterMap node?).flatMap Node.spentIds).count k := by
  induction pieces with
  | nil => rfl
  | cons piece pieces ih =>
      cases piece with
      | leaf l =>
          simp only [List.flatMap_cons, List.filterMap_cons, leaf?, node?, List.map_cons,
            List.count_append, List.count_cons, spentIds, List.count_nil, ih]
          omega
      | node n =>
          simp only [List.flatMap_cons, List.filterMap_cons, leaf?, node?, List.count_append,
            spentIds, ih]
          omega

/-! ### What building spends -/

/-- On the way from `w` to `w'` just the ids of the list are handed out, each of them once. -/
def Workshop.Spends (w w' : Workshop) (ids : List NodeId) : Prop :=
  ∃ n, w'.nextId = w.nextId + n ∧ ids.Perm (List.range' w.nextId n)

namespace Workshop.Spends

theorem none {w w' : Workshop} (h : w'.nextId = w.nextId) : w.Spends w' [] :=
  ⟨0, h, .refl _⟩

theorem one {w w' : Workshop} (h : w'.nextId = w.nextId + 1) : w.Spends w' [w.nextId] :=
  ⟨1, h, .refl _⟩

/-- Two stretches of ids, one after the other, are a stretch. -/
theorem append {u v w : Workshop} {xs ys : List NodeId} (h₁ : u.Spends v xs) (h₂ : v.Spends w ys) :
    u.Spends w (xs ++ ys) := by
  obtain ⟨n, hv, hx⟩ := h₁
  obtain ⟨m, hw, hy⟩ := h₂
  refine ⟨n + m, by rw [hw, hv, Nat.add_assoc], ?_⟩
  rw [← List.range'_append_1, ← hv]
  exact hx.append hy

end Workshop.Spends

/-- A leaf spends one id. -/
theorem Spelling.spends_of_run {s : Spelling} {leaf : Leaf} {w w' : Workshop}
    (h : s.write.run w = .ok (leaf, w')) : w.Spends w' [leaf.info.id] := by
  obtain ⟨hid, -, hnext, -⟩ := run_write_eq_ok h
  rw [hid]
  exact .one hnext

/-- Leaves spend one id each. -/
theorem Spelling.Written.spends {spellings : List Spelling} {leaves : List Leaf}
    {w w' : Workshop} (h : Written spellings w leaves w') :
    w.Spends w' (leaves.map (·.info.id)) := by
  induction h with
  | nil w => exact .none rfl
  | cons h _ ih => exact (spends_of_run h).append ih

/-- What a new node spends itself is its own id, when it has no dropped token. -/
theorem Build.spends_of_run_node {kind : Kind} {leaves : List Leaf} {children : List Node}
    {rank : Nat} {w w' : Workshop} {n : Node} (hk : kind ≠ .thisExpression)
    (h : (node kind leaves children rank).run w = .ok (n, w')) :
    n.children = children ∧ ∃ new, w.Spends w' new ∧
      n.ownIds ++ n.droppedIds = leaves.map (·.info.id) ++ new := by
  obtain ⟨range, -, rfl, rfl⟩ := run_node_eq_ok h
  refine ⟨rfl, [w.nextId], .one rfl, ?_⟩
  have hd : kind ≠ .thisExpression := hk
  simp [Node.ownIds, Node.droppedIds, Node.kind, Node.leaves, Node.id, Node.label, hd]

/-- The parts of a slot are made of the pieces of its group and of new ids. -/
theorem Slot.Fills.spends {s : Slot} {group parts : List Piece} {w w' : Workshop}
    (h : s.Fills group w parts w') (ha : s.admits group = true) (hs : s.sound = true) :
    ∃ new, w.Spends w' new ∧
      (parts.flatMap Piece.spentIds).Perm (group.flatMap Piece.spentIds ++ new) := by
  cases h with
  | «open» _ => exact ⟨[], .none rfl, by rw [List.append_nil]⟩
  | absent _ _ => exact ⟨[], .none rfl, .refl _⟩
  | hidden hh _ hn =>
      obtain ⟨hc, hk⟩ := Slot.sound_hidden hh hs
      obtain ⟨ns, rfl⟩ := Slot.exists_nodes ha hc
      rw [filterMap_node?_map_node] at hn
      obtain ⟨hch, new, hnew, hown⟩ := Build.spends_of_run_node (by rintro rfl; cases hk) hn
      refine ⟨new, hnew, ?_⟩
      rw [List.flatMap_singleton, Piece.spentIds, Node.spentIds_eq, hown, hch, List.flatMap_map]
      exact List.perm_append_comm

/-- Nodes come out of a slot for nodes. -/
theorem Slot.Fills.filterMap_leaf? {s : Slot} {group parts : List Piece} {w w' : Workshop}
    (h : s.Fills group w parts w') (ha : s.admits group = true) (hc : s.category ≠ .designation) :
    parts.filterMap Piece.leaf? = [] := by
  cases h with
  | «open» _ =>
      obtain ⟨ns, rfl⟩ := Slot.exists_nodes ha hc
      exact filterMap_leaf?_map_node ns
  | absent | hidden => rfl

/-- What comes out of the slots of a node, what is attached as well. -/
theorem Slot.FillsAll.spends {slots : List Slot} {groups : List (List Piece)}
    {attached inner : List Piece} {w w' : Workshop}
    (h : FillsAll slots groups w attached inner w') (hs : slots.all Slot.sound = true) :
    attached.filterMap Piece.leaf? = [] ∧ ∃ new, w.Spends w' new ∧
      ((attached ++ inner).flatMap Piece.spentIds).Perm
        (groups.flatten.flatMap Piece.spentIds ++ new) := by
  induction h with
  | nil w => exact ⟨rfl, [], .none rfl, .refl _⟩
  | @attached s slots group groups parts attached inner w v w' hatt ha h _ ih =>
      rw [List.all_cons, Bool.and_eq_true] at hs
      obtain ⟨hleaf, new, hnew, hperm⟩ := ih hs.2
      obtain ⟨first, hfirst, hparts⟩ := h.spends ha hs.1
      have hc := Slot.sound_attached hatt hs.1
      -- Attached parts change places with the others, so the ids agree only up to order.
      refine ⟨by rw [List.filterMap_append, h.filterMap_leaf? ha hc, hleaf]; rfl,
        first ++ new, hfirst.append hnew, List.perm_iff_count.mpr ?_⟩
      intro k
      have h₁ := List.perm_iff_count.mp hparts k
      have h₂ := List.perm_iff_count.mp hperm k
      simp only [List.flatMap_append, List.count_append, List.flatten_cons] at h₁ h₂ ⊢
      omega
  | @inner s slots group groups parts attached inner w v w' hatt ha h _ ih =>
      rw [List.all_cons, Bool.and_eq_true] at hs
      obtain ⟨hleaf, new, hnew, hperm⟩ := ih hs.2
      obtain ⟨first, hfirst, hparts⟩ := h.spends ha hs.1
      refine ⟨hleaf, first ++ new, hfirst.append hnew, List.perm_iff_count.mpr ?_⟩
      intro k
      have h₁ := List.perm_iff_count.mp hparts k
      have h₂ := List.perm_iff_count.mp hperm k
      simp only [List.flatMap_append, List.count_append, List.flatten_cons] at h₁ h₂ ⊢
      omega

/-- Only `this` drops a token. -/
def Product.sparing : Product → Bool
  | leaf _ => true
  | covering kind _ => kind == .thisExpression
  | word kind _ | node kind _ _ _ => kind != .thisExpression

/-- So it is for every production. -/
theorem Production.sparing {p : Production} (h : p.Allowed) : p.product.sparing = true := by
  cases p with
  | boolLiteral value => cases value <;> rfl
  | subpattern name => cases name <;> rfl
  | constructorInitializer kind =>
      rcases Kind.isConstructorInitializer_iff.mp (h kind rfl) with rfl | rfl <;> rfl
  | _ => rfl

/-- What a production makes is made of the pieces it takes and of new ids. -/
theorem Product.Makes.spends {product : Product} {groups : List (List Piece)} {piece : Piece}
    {w w' : Workshop} (h : product.Makes groups w piece w') (hf : product.follows = true)
    (hs : product.sparing = true) : ∃ new, w.Spends w' new ∧
      piece.spentIds.Perm (groups.flatten.flatMap Piece.spentIds ++ new) := by
  cases h with
  | leaf h => exact ⟨_, Spelling.spends_of_run h, .refl _⟩
  | @word kind _ _ _ _ h =>
      have hk : kind ≠ .thisExpression := bne_iff_ne.mp hs
      obtain ⟨rfl, rfl⟩ := Build.run_bareNode_eq_ok h
      refine ⟨[w.nextId], .one rfl, ?_⟩
      rw [Piece.spentIds, Node.spentIds_eq]
      simp [Node.ownIds, Node.droppedIds, Node.leaves, Node.label, Node.id, Node.children,
        Node.kind, hk]
  -- The id of the dropped token is spent, and it is told by the node above it.
  | @covering kind token dropped _ _ v _ hd h =>
      have hk : kind = .thisExpression := beq_iff_eq.mp hs
      obtain ⟨hid, -, hnext, -⟩ := Spelling.run_write_eq_ok hd
      obtain ⟨rfl, rfl⟩ := Build.run_bareNode_eq_ok h
      refine ⟨[dropped.info.id] ++ [v.nextId], (Spelling.spends_of_run hd).append (.one rfl), ?_⟩
      rw [Piece.spentIds, Node.spentIds_eq]
      simpa [Node.ownIds, Node.droppedIds, Node.leaves, Node.label, Node.id, Node.children,
        Node.kind, hk, hid, hnext] using List.Perm.swap _ _ _
  | @node kind spellings slots rank _ written attached inner n _ v u _ hw hfill h =>
      have hk : kind ≠ .thisExpression := bne_iff_ne.mp hs
      simp only [Product.follows, Bool.and_eq_true] at hf
      obtain ⟨hleaf, new, hnew, hperm⟩ := hfill.spends hf.1.1
      obtain ⟨hch, own, hown, hids⟩ := Build.spends_of_run_node hk h
      refine ⟨_, (hw.spends.append hnew).append hown, List.perm_iff_count.mpr ?_⟩
      intro k
      have hp := List.perm_iff_count.mp hperm k
      have hi := congrArg (List.count k) hids
      rw [List.flatMap_append, List.count_append, List.count_append,
        Piece.count_spentIds k attached, Piece.count_spentIds k inner, hleaf] at hp
      simp only [Piece.spentIds, Node.spentIds_withFirst, hch, List.flatMap_append, List.map_append,
        List.count_append, List.map_nil, List.count_nil] at hp hi ⊢
      omega

/-- The ids spent on the pieces there are have all been handed out, each of them once. -/
theorem spentIds_invariant : Invariant fun w pieces =>
    (pieces.flatMap Piece.spentIds).Perm (List.range w.nextId) where
  perm hp h := (hp.symm.flatMap_right _).trans h
  shelf _ h := h
  make {p groups piece w w' rest} ha hm h := by
    obtain ⟨new, ⟨n, hnext, hnew⟩, hperm⟩ :=
      hm.spends (Production.follows ha) (Production.sparing ha)
    rw [hnext, List.range_eq_range', ← List.range'_append_1, ← List.range_eq_range', Nat.zero_add]
    refine List.perm_iff_count.mpr ?_
    intro k
    have h₁ := List.perm_iff_count.mp h k
    have h₂ := List.perm_iff_count.mp hnew k
    have h₃ := List.perm_iff_count.mp hperm k
    simp only [List.flatMap_append, List.flatMap_cons, List.count_append] at h₁ h₃ ⊢
    omega

namespace Workshop

/-- **All ids are accounted for.**  Those that the pieces of a workshop have spent are those below
the next one. -/
theorem perm_spentIds {forms : List Form} {w : Workshop} (built : ofForms forms = .ok w) :
    (w.pieces.flatMap Piece.spentIds).Perm (List.range w.nextId) :=
  spentIds_invariant.ofForms built (.refl _)

/-! ### The nodes that a workshop holds -/

/-- The nodes at or below the values on the shelf. -/
def nodes (w : Workshop) : List Node := (w.pieces.filterMap Piece.node?).flatMap Node.nodes

/-- `n` is one of the values on the shelf or lies below one. -/
def Holds (w : Workshop) (n : Node) : Prop := ∃ value, .node value ∈ w.pieces ∧ n.Within value

theorem mem_nodes {w : Workshop} {n : Node} : n ∈ w.nodes ↔ w.Holds n := by
  rw [nodes, List.mem_flatMap]
  simp only [Holds, Piece.mem_filterMap_node?, Node.mem_nodes]

/-- A workshop holds what lies within the nodes that it holds. -/
theorem Holds.within {w : Workshop} {m n : Node} (h : w.Holds n) (hm : m.Within n) : w.Holds m := by
  obtain ⟨value, hv, hn⟩ := h
  exact ⟨value, hv, hm.trans hn⟩

theorem Holds.child {w : Workshop} {c n : Node} (h : w.Holds n) (hc : c ∈ n.children) :
    w.Holds c :=
  h.within (Node.within_of_mem_children hc)

/-- What a workshop holds is grammatical. -/
theorem Holds.grammatical {forms : List Form} {w : Workshop} {n : Node}
    (built : ofForms forms = .ok w) (h : w.Holds n) : n.Grammatical := by
  obtain ⟨value, hv, hn⟩ := h
  exact (grammatical_invariant.ofForms built nofun value hv).within hn

/-- No id is spent twice on the nodes of a workshop. -/
theorem nodup_spentIds {forms : List Form} {w : Workshop} (built : ofForms forms = .ok w) :
    ((w.pieces.filterMap Piece.node?).flatMap Node.spentIds).Nodup := by
  have hnodup : (w.pieces.flatMap Piece.spentIds).Nodup :=
    (perm_spentIds built).nodup_iff.mpr List.nodup_range
  refine List.nodup_iff_count_le_one.mpr ?_
  intro k
  have := List.nodup_iff_count_le_one.mp hnodup k
  rw [Piece.count_spentIds] at this
  omega

/-- No two nodes of a workshop have one id. -/
theorem nodup_map_id_nodes {forms : List Form} {w : Workshop} (built : ofForms forms = .ok w) :
    (w.nodes.map Node.id).Nodup := by
  refine (nodup_spentIds built).sublist ?_
  rw [nodes, List.map_flatMap]
  exact .flatMap_right _ fun n _ => n.sublist_spentIds

/-- A node is known by its id. -/
theorem Holds.eq_of_id_eq {forms : List Form} {w : Workshop} {m n : Node}
    (built : ofForms forms = .ok w) (hm : w.Holds m) (hn : w.Holds n) (h : m.id = n.id) : m = n :=
  List.inj_on_of_nodup_map (nodup_map_id_nodes built) (mem_nodes.mpr hm) (mem_nodes.mpr hn) h

/-- A node is known by the id of a leaf that it holds. -/
theorem Holds.eq_of_leaf_id_eq {forms : List Form} {w : Workshop} {m n : Node} {l l' : Leaf}
    (built : ofForms forms = .ok w) (hm : w.Holds m) (hn : w.Holds n) (hl : l ∈ m.leaves)
    (hl' : l' ∈ n.leaves) (h : l.info.id = l'.info.id) : m = n := by
  have hd : (w.nodes.flatMap Node.ownIds).Nodup := by
    refine (nodup_spentIds built).sublist ?_
    rw [nodes, List.flatMap_assoc]
    refine .flatMap_right _ fun n _ => ?_
    exact .flatMap_right _ fun m _ => List.sublist_append_left _ _
  have own {k : Node} {l : Leaf} (hl : l ∈ k.leaves) : l.info.id ∈ k.ownIds :=
    List.mem_append_left _ (List.mem_map_of_mem hl)
  exact eq_of_nodup_flatMap hd (mem_nodes.mpr hm) (mem_nodes.mpr hn) (own hl) (h ▸ own hl')

end Workshop

end InlineLocals
