import Mathlib
import InlineLocals.Proofs.Declaration.Found
import InlineLocals.Proofs.Syntax.Layout

/-!
# Declaration — Designations

Designations in the order of the text.  A walk that comes to every node after its children
(`Node.postorder`) meets the designations of a tree in some order (`Node.designations`).  A
production hands its parts on in the order in which it was given them: attached parts first, and
designations last where the node declares them (`Product.ordered`).  So it leaves the designations
of its parts in their order, and adds none (`Product.Makes.designations_sublist`); the same is true
of the wrappers, whatever else they build (`Wrapper.ends_wrap`).

Hence a form that takes nothing from the shelf builds a tree whose designations the walk meets at
increasing positions (`Form.ascending_of_run`).
-/

namespace InlineLocals

namespace Node

/-! ### Nodes after their children -/

mutual

/-- The nodes at or below a node, each after its children. -/
def postorder : Node → List Node
  | mk label children => postorderAll children ++ [mk label children]

/-- The nodes at or below the nodes of a list, each after its children. -/
def postorderAll : List Node → List Node
  | [] => []
  | n :: rest => n.postorder ++ postorderAll rest

end

theorem postorderAll_eq_flatMap (ns : List Node) : postorderAll ns = ns.flatMap postorder := by
  induction ns with
  | nil => rfl
  | cons n rest ih => rw [postorderAll, ih, List.flatMap_cons]

/-- A tree in postorder: the trees of the children, and then the root. -/
theorem postorder_eq (n : Node) : n.postorder = n.children.flatMap postorder ++ [n] := by
  cases n
  rw [postorder, postorderAll_eq_flatMap, children]

/-- The nodes of a part of a tree stand together in the list of its nodes. -/
theorem Within.sublist_postorder {m n : Node} (h : m.Within n) :
    m.postorder.Sublist n.postorder := by
  induction n using Node.induction with
  | step n ih =>
      rcases within_iff.mp h with rfl | ⟨child, hc, hm⟩
      · exact .refl _
      · rw [postorder_eq n]
        refine (ih child hc hm).trans (.trans ?_ (List.sublist_append_left _ _))
        exact List.sublist_flatten_of_mem (List.mem_map_of_mem hc)

mutual

/-- A search comes to the nodes in this order. -/
theorem sublist_postorder_reached (first : Bool) : ∀ n : Node,
    ((n.reached first).map Prod.snd).Sublist n.postorder
  | mk label children => by
      rw [reached, postorder, List.map_append]
      exact (sublist_postorderAll_reachedFrom _ first 0 children).append (.refl _)

/-- What is reached is in postorder. -/
theorem sublist_postorderAll_reachedFrom (n : Node) (first : Bool) : ∀ (i : Nat) (ns : List Node),
    ((n.reachedFrom first i ns).map Prod.snd).Sublist (postorderAll ns)
  | _, [] => .slnil
  | i, child :: rest => by
      rw [reachedFrom, postorderAll, List.map_append]
      refine .append ?_ (sublist_postorderAll_reachedFrom n first (i + 1) rest)
      split
      · exact List.nil_sublist _
      · rw [List.map_map]
        exact sublist_postorder_reached false child

end

/-! ### The designations of a tree -/

/-- The designations that the node itself declares. -/
def ownDesignations (n : Node) : List Leaf := if n.kind.declares then n.leaves else []

/-- The designations in the tree, in the order of a walk that comes to a node after its children. -/
def designations (n : Node) : List Leaf := n.postorder.flatMap ownDesignations

theorem ownDesignations_sublist (n : Node) : n.ownDesignations.Sublist n.leaves := by
  unfold ownDesignations
  split
  · exact .refl _
  · exact List.nil_sublist _

/-- The designations of a tree: those below, and then those of the root. -/
theorem designations_eq (n : Node) :
    n.designations = n.children.flatMap designations ++ n.ownDesignations := by
  rw [designations, postorder_eq, List.flatMap_append, List.flatMap_assoc, List.flatMap_singleton]
  rfl

/-- Those of a part are in the same order within the whole. -/
theorem Within.sublist_designations {m n : Node} (h : m.Within n) :
    m.designations.Sublist n.designations :=
  h.sublist_postorder.flatMap _

end Node

namespace Piece

/-- The designations of a piece: a leaf is one itself. -/
def designations : Piece → List Leaf
  | leaf l => [l]
  | node n => n.designations

theorem flatMap_designations_map_node (ns : List Node) :
    (ns.map node).flatMap designations = ns.flatMap Node.designations := by
  rw [List.flatMap_map]
  rfl

theorem flatMap_designations_map_leaf (leaves : List Leaf) :
    (leaves.map leaf).flatMap designations = leaves := by
  rw [List.flatMap_map]
  exact List.flatMap_singleton' leaves

theorem sublist_flatMap_node? : ∀ pieces : List Piece,
    ((pieces.filterMap node?).flatMap Node.designations).Sublist (pieces.flatMap designations)
  | [] => .slnil
  | leaf l :: pieces => (sublist_flatMap_node? pieces).cons l
  | node _ :: pieces => (sublist_flatMap_node? pieces).append_left _

end Piece

/-! ### Ascending leaves -/

/-- The leaves stand one after the other, and before the positions to come. -/
structure Workshop.Ascending (w : Workshop) (leaves : List Leaf) : Prop where
  pairwise : (leaves.map (·.range.pos)).Pairwise (· < ·)
  lt : ∀ l ∈ leaves, l.range.pos < w.nextPos

namespace Workshop.Ascending

variable {w v : Workshop} {leaves : List Leaf}

theorem nil (w : Workshop) : w.Ascending [] := ⟨.nil, nofun⟩

/-- Fewer designations ascend as well, and in a workshop that is further on. -/
theorem mono (h : w.Ascending leaves) {fewer : List Leaf} (hs : fewer.Sublist leaves)
    (hpos : w.nextPos ≤ v.nextPos) : v.Ascending fewer where
  pairwise := h.pairwise.sublist (hs.map _)
  lt l hl := Nat.lt_of_lt_of_le (h.lt l (hs.subset hl)) hpos

/-- What is written now stands after the rest. -/
theorem write (h : w.Ascending leaves) {s : Spelling} {leaf : Leaf}
    (hs : s.write.run w = .ok (leaf, v)) : v.Ascending (leaves ++ [leaf]) := by
  obtain ⟨-, hrange, -, hpos, -⟩ := Spelling.run_write_eq_ok hs
  have hle : w.nextPos < v.nextPos := by omega
  refine ⟨?_, ?_⟩
  · rw [List.map_append, List.pairwise_append]
    refine ⟨h.pairwise, List.pairwise_singleton _ _, ?_⟩
    simp only [List.mem_map, List.map_singleton, List.mem_singleton]
    rintro _ ⟨l, hl, rfl⟩ _ rfl
    rw [hrange]
    exact h.lt l hl
  · rw [List.forall_mem_append, List.forall_mem_singleton, hrange]
    exact ⟨fun l hl => Nat.lt_trans (h.lt l hl) hle, hle⟩

end Workshop.Ascending

/-! ### Productions keep the order -/

/-- The product hands its parts on in the order of its slots: attached parts come first, and in a
node that declares, designations come last and stand alone. -/
def Product.ordered : Product → Bool
  | node kind spellings slots _ =>
    decide (slots.Pairwise fun s t => t.attached = true → s.attached = true) &&
      (!kind.declares || (spellings.isEmpty && slots.all Slot.sound &&
        decide (slots.Pairwise fun s t => s.category = .designation → t.category = .designation)))
  | _ => true

/-- So do the products of all productions. -/
theorem Production.ordered {p : Production} (h : p.Allowed) : p.product.ordered = true := by
  cases p with
  | boolLiteral value => cases value <;> rfl
  | objectCreation called filled => cases called <;> cases filled <;> rfl
  | subpattern name => cases name <;> rfl
  | joinClause name into typed => cases into <;> cases typed <;> rfl
  | constructorInitializer kind =>
      rcases Kind.isConstructorInitializer_iff.mp (h kind rfl) with rfl | rfl <;> rfl
  | _ => rfl

/-- A slot hands on its designations in their order. -/
theorem Slot.Fills.designations_sublist {s : Slot} {group parts : List Piece} {w w' : Workshop}
    (h : s.Fills group w parts w') :
    (parts.flatMap Piece.designations).Sublist (group.flatMap Piece.designations) := by
  cases h with
  | «open» => exact .refl _
  | absent => exact .slnil
  | @hidden kind _ _ n _ _ _ h =>
      obtain ⟨range, -, rfl, -⟩ := Build.run_node_eq_ok h
      have hown : ∀ label : Label, label.leaves = [] →
          (Node.mk label (group.filterMap Piece.node?)).ownDesignations = [] := by
        intro label hl
        simp [Node.ownDesignations, Node.leaves, Node.label, hl]
      rw [List.flatMap_singleton, Piece.designations, Node.designations_eq, hown _ rfl,
        List.append_nil]
      exact Piece.sublist_flatMap_node? group

/-- Attached parts that come first are in order with the others. -/
theorem Slot.FillsAll.designations_sublist {slots : List Slot} {groups : List (List Piece)}
    {attached inner : List Piece} {w w' : Workshop}
    (h : FillsAll slots groups w attached inner w')
    (hs : slots.Pairwise fun s t => t.attached = true → s.attached = true) :
    ((attached ++ inner).flatMap Piece.designations).Sublist
      (groups.flatten.flatMap Piece.designations) := by
  induction h with
  | nil w => exact .slnil
  | attached _ _ h _ ih =>
      rw [List.pairwise_cons] at hs
      have hall := h.designations_sublist.append (ih hs.2)
      rwa [← List.flatMap_append, ← List.flatMap_append, ← List.append_assoc] at hall
  | inner hatt _ h hrest ih =>
      -- After a slot whose parts are not attached there is none whose parts are.
      rw [List.pairwise_cons] at hs
      have hnone := hrest.attached_eq_nil fun t ht => by
        cases ha : t.attached with
        | false => rfl
        | true => exact absurd (hs.1 t ht ha) (by simp [hatt])
      subst hnone
      have hall := h.designations_sublist.append (ih hs.2)
      rwa [← List.flatMap_append, ← List.flatMap_append] at hall

/-- A slot for other parts contributes nodes. -/
theorem Slot.Fills.exists_nodes {s : Slot} {group parts : List Piece} {w w' : Workshop}
    (h : s.Fills group w parts w') (ha : s.admits group = true) (hc : s.category ≠ .designation) :
    ∃ ns, List.map Piece.node ns = parts := by
  cases h with
  | «open» => exact Slot.exists_nodes ha hc
  | absent => exact ⟨[], rfl⟩
  | hidden => exact ⟨[_], rfl⟩

/-- Where designations come last, the nodes come before the leaves. -/
theorem Slot.FillsAll.exists_nodes_leaves {slots : List Slot} {groups : List (List Piece)}
    {attached inner : List Piece} {w w' : Workshop}
    (h : FillsAll slots groups w attached inner w') (hsound : slots.all Slot.sound = true)
    (hs : slots.Pairwise fun s t => s.category = .designation → t.category = .designation) :
    ∃ ns leaves, inner = List.map Piece.node ns ++ List.map Piece.leaf leaves ∧
      ((∀ s ∈ slots, s.category = .designation) → ns = []) := by
  induction h with
  | nil w => exact ⟨[], [], rfl, fun _ => rfl⟩
  | attached _ _ _ _ ih =>
      rw [List.all_cons, Bool.and_eq_true] at hsound
      obtain ⟨ns, leaves, rfl, hns⟩ := ih hsound.2 (List.pairwise_cons.mp hs).2
      exact ⟨ns, leaves, rfl, fun hd => hns fun s hm => hd s (List.mem_cons_of_mem _ hm)⟩
  | @inner s _ _ _ _ _ _ _ _ _ _ ha h _ ih =>
      rw [List.all_cons, Bool.and_eq_true] at hsound
      rw [List.pairwise_cons] at hs
      obtain ⟨ns, leaves, rfl, hns⟩ := ih hsound.2 hs.2
      by_cases hc : s.category = .designation
      · obtain ⟨-, own, rfl, -⟩ := h.leaves ha hsound.1 hc
        -- All slots after one for designations are for designations too.
        obtain rfl := hns fun t ht => hs.1 t ht hc
        exact ⟨[], own ++ leaves, by simp, fun _ => rfl⟩
      · obtain ⟨own, rfl⟩ := h.exists_nodes ha hc
        exact ⟨own ++ ns, leaves, by simp, fun hd => absurd (hd s List.mem_cons_self) hc⟩

/-- A node has the designations of its parts in their order. -/
theorem Product.Makes.designations_sublist {product : Product} {groups : List (List Piece)}
    {n : Node} {w w' : Workshop} (h : product.Makes groups w (.node n) w')
    (ho : product.ordered = true) :
    n.designations.Sublist (groups.flatten.flatMap Piece.designations) := by
  have bare {kind : Kind} {range : Range} {v v' : Workshop}
      (h : (Build.bareNode kind range).run v = .ok (n, v')) : n.designations = [] := by
    obtain ⟨rfl, -⟩ := Build.run_bareNode_eq_ok h
    rw [Node.designations_eq]
    simp [Node.children, Node.ownDesignations, Node.leaves, Node.label]
  cases h with
  | word h | covering _ h =>
      rw [bare h]
      exact List.nil_sublist _
  | @node kind spellings slots rank groups written attached inner n _ v u _ hw hf h =>
      obtain ⟨range, -, rfl, -⟩ := Build.run_node_eq_ok h
      simp only [Product.ordered, Bool.and_eq_true, Bool.or_eq_true, Bool.not_eq_true',
        decide_eq_true_eq, List.isEmpty_iff] at ho
      obtain ⟨hattached, hdeclares⟩ := ho
      -- The designations that the node itself declares are leaves of its inner parts: where it
      -- declares, it writes none of its own.
      refine .trans ?_ (hf.designations_sublist hattached)
      rw [Node.withFirst, Node.designations_eq, Node.children]
      rcases hdeclares with hk | ⟨⟨rfl, hsound⟩, hlast⟩
      · simp only [Node.ownDesignations, Node.kind, Node.label, hk, Bool.false_eq_true, if_false]
        rw [List.append_nil, ← List.filterMap_append]
        exact Piece.sublist_flatMap_node? _
      · cases hw
        obtain ⟨ns, leaves, rfl, -⟩ := hf.exists_nodes_leaves hsound hlast
        simp only [List.filterMap_append, filterMap_node?_map_node, filterMap_node?_map_leaf,
          filterMap_leaf?_map_node, filterMap_leaf?_map_leaf, List.flatMap_append,
          Piece.flatMap_designations_map_node, Piece.flatMap_designations_map_leaf,
          List.append_assoc, List.append_nil, List.nil_append]
        refine (Piece.sublist_flatMap_node? attached).append (.append_left ?_ _)
        exact Node.ownDesignations_sublist _

/-! ### Evaluation keeps the order -/

open Build (Ends ends_iff)

/-- A new leaf stands after what is in hand, and a node has the designations of its parts. -/
theorem Product.Makes.ascending {product : Product} {groups : List (List Piece)} {piece : Piece}
    {w w' : Workshop} (h : product.Makes groups w piece w') (ho : product.ordered = true)
    {hand : List Leaf}
    (hl : w.Ascending (hand ++ groups.flatten.flatMap Piece.designations)) :
    w'.Ascending (hand ++ piece.designations) := by
  cases piece with
  | leaf l =>
      cases h with
      | leaf h => exact Workshop.Ascending.write (by simpa using hl) h
  | node n => exact hl.mono (.append_left (h.designations_sublist ho) _) h.nextPos_le

/-- What a production makes ascends after what is in hand. -/
theorem Production.ends_build_ascending {p : Production} {groups : List (List Piece)}
    {hand : List Piece} {w : Workshop}
    (h : w.Ascending ((hand ++ groups.flatten).flatMap Piece.designations)) :
    Ends (p.build groups) w
      (fun piece w' => w'.Ascending ((hand ++ [piece]).flatMap Piece.designations))
      (fun _ => True) := by
  refine ends_iff.mpr ⟨fun piece w' hr => ?_, fun _ _ => trivial⟩
  obtain ⟨ha, hm⟩ := makes_of_run hr
  rw [List.flatMap_append] at h ⊢
  rw [List.flatMap_singleton]
  exact hm.ascending (Production.ordered ha) h

/-- A node brings no other designations than its parts do. -/
theorem Production.ends_build_sublist {p : Production} (hp : ∀ s, p.product ≠ .leaf s)
    {groups : List (List Piece)} {leaves : List Leaf} {w : Workshop}
    (h : (groups.flatten.flatMap Piece.designations).Sublist leaves) :
    Ends (p.build groups) w
      (fun piece w' => piece.designations.Sublist leaves ∧ w.nextPos ≤ w'.nextPos)
      (fun _ => True) := by
  refine ends_iff.mpr ⟨fun piece w' hr => ?_, fun _ _ => trivial⟩
  obtain ⟨ha, hm⟩ := makes_of_run hr
  refine ⟨?_, hm.nextPos_le⟩
  cases piece with
  | node n => exact (hm.designations_sublist (Production.ordered ha)).trans h
  | leaf l =>
      generalize hprod : p.product = product at hm
      cases hm with
      | leaf => exact absurd hprod (hp _)

open Production (ends_build_sublist)

/-- What a wrapper builds besides brings no designations, wherever it is put. -/
theorem Wrapper.ends_wrap (wrapper : Wrapper) (v : Piece) (w : Workshop) :
    Ends (wrapper.wrap v) w
      (fun piece w' => piece.designations.Sublist v.designations ∧ w.nextPos ≤ w'.nextPos)
      (fun _ => True) := by
  have hv : ([[v]].flatten.flatMap Piece.designations).Sublist v.designations := by simp
  have hnone : (([] : List (List Piece)).flatten.flatMap Piece.designations).Sublist [] := .slnil
  have hempty : (([[]] : List (List Piece)).flatten.flatMap Piece.designations).Sublist [] := .slnil
  have hpair {first : Piece} (hfirst : first.designations.Sublist []) :
      ([[first], [v]].flatten.flatMap Piece.designations).Sublist v.designations := by
    simp [List.sublist_nil.mp hfirst]
  -- The cases follow what a wrapper builds around the piece: one production, or one and its other
  -- parts, which are built without any designation.
  cases wrapper with
  | parenthesized | negation | member | arrayType | nullableType | block =>
      exact ends_build_sublist (by nofun) hv
  | call =>
      refine (ends_build_sublist (by nofun) hnone).bind fun callee w₁ hcallee => ?_
      refine (ends_build_sublist (by nofun) hv).bind fun argument w₂ hargument => ?_
      have h : ([[callee], [argument]].flatten.flatMap Piece.designations).Sublist
          v.designations := by
        simpa [List.sublist_nil.mp hcallee.1] using hargument.1
      exact (ends_build_sublist (by nofun) h).mono fun _ _ hp =>
        ⟨hp.1, Nat.le_trans hcallee.2 (Nat.le_trans hargument.2 hp.2)⟩
  | rightOperand =>
      refine (ends_build_sublist (by nofun) hnone).bind fun left w₁ hleft => ?_
      exact (ends_build_sublist (by nofun) (hpair hleft.1)).mono fun _ _ hp =>
        ⟨hp.1, Nat.le_trans hleft.2 hp.2⟩
  | lambda =>
      refine (ends_build_sublist (by nofun) hempty).bind fun parameter w₁ hparameter => ?_
      exact (ends_build_sublist (by nofun) (hpair hparameter.1)).mono fun _ _ hp =>
        ⟨hp.1, Nat.le_trans hparameter.2 hp.2⟩
  | recursivePattern =>
      refine (ends_build_sublist (by nofun) hv).bind fun inner w₁ hinner => ?_
      have h : ([[], [inner], [], []].flatten.flatMap Piece.designations).Sublist
          v.designations := by
        simpa using hinner.1
      exact (ends_build_sublist (by nofun) h).mono fun _ _ hp =>
        ⟨hp.1, Nat.le_trans hinner.2 hp.2⟩
  | elseBranch =>
      refine (ends_build_sublist (by nofun) hnone).bind fun condition w₁ hcondition => ?_
      refine (ends_build_sublist (by nofun) hnone).bind fun branch w₂ hbranch => ?_
      have h : ([[condition], [branch], [v]].flatten.flatMap Piece.designations).Sublist
          v.designations := by
        simp [List.sublist_nil.mp hcondition.1, List.sublist_nil.mp hbranch.1]
      exact (ends_build_sublist (by nofun) h).mono fun _ _ hp =>
        ⟨hp.1, Nat.le_trans hcondition.2 (Nat.le_trans hbranch.2 hp.2)⟩
  | continuation =>
      refine (ends_build_sublist (by nofun) hv).bind fun next w₁ hnext => ?_
      refine (ends_build_sublist (by nofun) hnone).bind fun selected w₂ hselected => ?_
      have hs : ([[selected]].flatten.flatMap Piece.designations).Sublist [] := by
        simp [List.sublist_nil.mp hselected.1]
      refine (ends_build_sublist (by nofun) hs).bind fun selection w₃ hselection => ?_
      have h : ([[], [selection], [next]].flatten.flatMap Piece.designations).Sublist
          v.designations := by
        simpa [List.sublist_nil.mp hselection.1] using hnext.1
      exact (ends_build_sublist (by nofun) h).mono fun _ _ hp =>
        ⟨hp.1, Nat.le_trans hnext.2 (Nat.le_trans hselected.2 (Nat.le_trans hselection.2 hp.2))⟩

/-- **Evaluation from left to right keeps the designations in order**, when nothing is taken from
the shelf. -/
theorem ascending_keeps : Form.Keeps (fun f => ∀ place, f ≠ .take place)
    (fun w hand => w.Ascending (hand.flatMap Piece.designations)) (fun _ => True) where
  take hok _ := absurd rfl (hok _)
  make _ h := Production.ends_build_ascending h
  join h := Production.ends_build_ascending h
  wrap _ h := (Wrapper.ends_wrap _ _ _).mono fun piece w' hp => by
    rw [List.flatMap_append, List.flatMap_singleton] at h ⊢
    exact h.mono (.append_left hp.1 _) hp.2
  emptyChain := trivial

/-- The designations of a value that one form builds stand at increasing positions. -/
theorem Form.ascending_of_run {form : Form} (hform : ∀ f ∈ form.subforms, ∀ place, f ≠ .take place)
    {v v' : Workshop} {piece : Piece} (run : form.eval.run v = .ok (piece, v')) :
    v'.Ascending piece.designations := by
  have h := (ascending_keeps.eval [] hform (.nil v)).of_ok run
  rwa [List.nil_append, List.flatMap_singleton] at h

end InlineLocals
