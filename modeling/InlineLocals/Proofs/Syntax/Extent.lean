import InlineLocals.Proofs.Text.Span
import InlineLocals.Proofs.Syntax.Numbering

/-!
# Syntax — Extent

How far nodes extend.  A node that is built over leaves and children spans them
(`Build.ends_node`), and the parts come from anywhere: they may have been built in any order and
lain on the shelf in between.  One production alone takes a part that its node does not span, the
join clause whose type is attached to it afterwards.  Without it the law of extents
(`extent_law`) goes through every production: all ranges are upright, so no node is ever inverted,
and the range of a node with parts is the smallest one that contains the ranges of its parts.
-/

namespace InlineLocals

namespace Node

/-- The ranges of what the node consists of: its own leaves and its children. -/
def partRanges (n : Node) : List Range := n.leaves.map Leaf.range ++ n.children.map Node.range

/-- The node extends as far as its parts do. -/
structure Extended (n : Node) : Prop where
  upright : n.range.Upright
  leaf_upright : ∀ l ∈ n.leaves, l.range.Upright
  spans : n.partRanges ≠ [] → n.range.Spans n.partRanges

/-- A node contains what lies below it. -/
theorem contains_of_within {n : Node} (h : ∀ m : Node, m.Within n → m.Extended) {m : Node}
    (hm : m.Within n) : n.range.contains m.range = true := by
  induction n using Node.induction with
  | step n ih =>
      rcases within_iff.mp hm with rfl | ⟨child, hc, hm⟩
      · exact Range.contains_refl _
      · have hchild : n.range.contains child.range = true := by
          have hpart : child.range ∈ n.partRanges :=
            List.mem_append_right _ (List.mem_map_of_mem hc)
          exact ((h n (.refl n)).spans (List.ne_nil_of_mem hpart)).contains _ hpart
        have hbelow := ih child hc (fun k hk => h k (hk.trans (within_of_mem_children hc))) hm
        exact Range.contains_trans hchild hbelow

/-- A node contains its leaves. -/
theorem Extended.contains_leaf {n : Node} (h : n.Extended) {l : Leaf} (hl : l ∈ n.leaves) :
    n.range.contains l.range = true := by
  have hpart : l.range ∈ n.partRanges := List.mem_append_left _ (List.mem_map_of_mem hl)
  exact (h.spans (List.ne_nil_of_mem hpart)).contains _ hpart

end Node

/-- The leaf is upright, or all nodes of the tree extend as far as their parts do. -/
def Piece.Extended : Piece → Prop
  | leaf l => l.range.Upright
  | node n => ∀ m : Node, m.Within n → m.Extended

/-! ### The extent of what is built -/

section

open Build (Ends ends_pure ends_throw)

variable {E : BuildError → Prop} {w : Workshop}

namespace Build

/-- Upright ranges have a span, the least range that contains them. -/
theorem ends_span {ranges : List Range} (h : ∀ r ∈ ranges, r.Upright) :
    Ends (span ranges) w (fun t _ => t.Upright ∧ (ranges ≠ [] → t.Spans ranges)) E := by
  obtain ⟨t, ht, hspans⟩ := Range.exists_span? w.nextPos h
  have hrun : (span ranges).run w = .ok (t, w) := by
    simp only [span, StateT.run_bind, StateT.run_get, pure_bind, ht]
    rfl
  unfold Ends
  rw [hrun]
  exact hspans

/-- A node over upright parts is built without an error, and extends as far as they do. -/
theorem ends_node {kind : Kind} {leaves : List Leaf} {children : List Node} {rank : Nat}
    (hl : ∀ l ∈ leaves, l.range.Upright) (hc : ∀ c ∈ children, (Piece.node c).Extended) :
    Ends (node kind leaves children rank) w (fun n _ => (Piece.node n).Extended) E := by
  have hparts : ∀ r ∈ leaves.map Leaf.range ++ children.map Node.range, r.Upright := by
    simp only [List.forall_mem_append, List.forall_mem_map]
    exact ⟨hl, fun c hm => (hc c hm c (.refl c)).upright⟩
  refine (ends_span hparts).bind fun range v hr => ?_
  intro m hm
  rcases Node.within_iff.mp hm with rfl | ⟨child, hm', hm⟩
  · exact ⟨hr.1, hl, hr.2⟩
  · exact hc child hm' m hm

theorem ends_stretch (width : Nat) : Ends (stretch width) w (fun range _ => range.Upright) E :=
  Nat.le_add_right _ _

/-- A node that holds nothing extends as far as it is told. -/
theorem ends_bareNode {kind : Kind} {range : Range} (h : range.Upright) :
    Ends (bareNode kind range) w (fun n _ => (Piece.node n).Extended) E := by
  intro m hm
  rcases Node.within_iff.mp hm with rfl | ⟨child, hm', -⟩
  · exact ⟨h, nofun, fun h => absurd rfl h⟩
  · cases hm'

end Build

theorem Spelling.ends_write (s : Spelling) : Ends s.write w (fun l _ => l.range.Upright) E := by
  cases s <;> exact Nat.le_add_right _ _

theorem Spelling.ends_mapM_write : ∀ {spellings : List Spelling} {w : Workshop},
    Ends (spellings.mapM write) w (fun leaves _ => ∀ l ∈ leaves, l.range.Upright) E
  | [], _ => by
      rw [List.mapM_nil]
      exact ends_pure nofun
  | s :: spellings, _ => by
      rw [List.mapM_cons]
      refine s.ends_write.bind fun leaf _ hleaf => ?_
      refine ends_mapM_write.bind fun leaves _ hleaves => ?_
      exact ends_pure (List.forall_mem_cons.mpr ⟨hleaf, hleaves⟩)

/-- A slot makes extended parts of extended ones. -/
theorem Slot.ends_fill {s : Slot} {group : List Piece} (h : ∀ p ∈ group, p.Extended) :
    Ends (s.fill group) w (fun parts _ => ∀ p ∈ parts, p.Extended) E := by
  have hnodes : ∀ n ∈ group.filterMap Piece.node?, (Piece.node n).Extended :=
    fun n hn => h _ (Piece.mem_filterMap_node?.mp hn)
  unfold fill
  split
  · exact ends_pure h
  · split
    · exact ends_pure nofun
    · refine (Build.ends_node (List.forall_mem_nil _) hnodes).bind fun n _ hn => ?_
      exact ends_pure (by simpa using hn)

/-- All parts that slots contribute are taken in, unless they are attached. -/
theorem Slot.ends_fillAll : ∀ {slots : List Slot} {groups : List (List Piece)} {w : Workshop},
    (∀ s ∈ slots, s.attached = false) → (∀ p ∈ groups.flatten, p.Extended) →
      Ends (fillAll slots groups) w
        (fun parts _ => parts.1 = [] ∧ ∀ p ∈ parts.2, p.Extended) E
  | [], _, _, _, _ | _ :: _, [], _, _, _ => ends_pure ⟨rfl, nofun⟩
  | s :: slots, group :: groups, _, hs, h => by
      rw [List.forall_mem_cons] at hs
      rw [List.flatten_cons, List.forall_mem_append] at h
      refine (ends_fill h.1).bind fun parts _ hparts => ?_
      refine (ends_fillAll hs.2 h.2).bind fun rest _ hrest => ?_
      rw [hs.1]
      exact ends_pure ⟨hrest.1, List.forall_mem_append.mpr ⟨hparts, hrest.2⟩⟩

/-- The production takes no part that its node does not span. -/
def Production.TakesIn (p : Production) : Prop := ∀ s ∈ p.product.slots, s.attached = false

/-- So does a product without attached parts, and it does not fail. -/
theorem Product.ends_make {product : Product} (hs : ∀ s ∈ product.slots, s.attached = false)
    {groups : List (List Piece)} (h : ∀ p ∈ groups.flatten, p.Extended) :
    Ends (product.make groups) w (fun piece _ => piece.Extended) E := by
  cases product with
  | leaf spelling => exact spelling.ends_write.bind fun _ _ hl => ends_pure hl
  | word kind width =>
      refine (Build.ends_stretch width).bind fun range _ hup => ?_
      exact (Build.ends_bareNode hup).bind fun _ _ hn => ends_pure hn
  | covering kind token =>
      refine (Spelling.ends_write _).bind fun dropped _ hd => ?_
      exact (Build.ends_bareNode hd).bind fun _ _ hn => ends_pure hn
  | node kind spellings slots rank =>
      refine Spelling.ends_mapM_write.bind fun written _ hwritten => ?_
      refine (Slot.ends_fillAll hs h).bind fun parts _ hparts => ?_
      obtain ⟨attached, inner⟩ := parts
      -- Nothing is attached, so the finished node is the one that spans its parts.
      obtain ⟨rfl, hinner⟩ := hparts
      have hleaves : ∀ l ∈ written ++ inner.filterMap Piece.leaf?, l.range.Upright :=
        List.forall_mem_append.mpr
          ⟨hwritten, fun l hl => hinner (.leaf l) (Piece.mem_filterMap_leaf?.mp hl)⟩
      have hnodes : ∀ n ∈ inner.filterMap Piece.node?, (Piece.node n).Extended :=
        fun n hn => hinner _ (Piece.mem_filterMap_node?.mp hn)
      refine (Build.ends_node hleaves hnodes).bind fun n _ hn => ends_pure ?_
      cases n
      exact hn

/-- A production may fail its checks, but never for an inverted range. -/
theorem Production.ends_build {p : Production} (hp : p.TakesIn) {groups : List (List Piece)}
    (h : ∀ q ∈ groups.flatten, q.Extended) :
    Ends (p.build groups) w (fun piece _ => piece.Extended) (· ≠ .inverted) := by
  have hcheck : Ends p.check w (fun _ _ => True) (· ≠ .inverted) := by
    unfold check
    split
    · split
      · exact ends_pure trivial
      · exact ends_throw nofun
    · exact ends_pure trivial
  refine hcheck.bind fun _ v _ => ?_
  by_cases ha : Slot.allAdmit p.product.slots groups = true
  · simp only [ha]
    exact Product.ends_make hp h
  · simp only [ha]
    exact ends_throw nofun

end

/-! ### The extent of what there is -/

/-- Every production takes its parts in, but for the join clause with a type attached to it. -/
theorem Production.takesIn {p : Production} (h : ∀ name into, p ≠ .joinClause name into true) :
    p.TakesIn := by
  have hall : (p.product.slots.all fun s => !s.attached) = true := by
    cases p with
    | boolLiteral value => cases value <;> rfl
    | subpattern name => cases name <;> rfl
    | objectCreation called filled => cases called <;> cases filled <;> rfl
    | joinClause name into typed =>
        cases typed with
        | false => rfl
        | true => exact absurd rfl (h name into)
    | _ => rfl
  intro s hs
  simpa using List.all_eq_true.mp hall s hs

/-- **The law of extents.**  All pieces of a workshop extend as far as their parts, when no type is
attached afterwards. -/
theorem extent_law : Law Production.TakesIn (fun _ pieces => ∀ p ∈ pieces, p.Extended)
    (· ≠ .inverted) where
  perm hp h p hm := h p (hp.mem_iff.mpr hm)
  shelf _ h := h
  make hp h := by
    rw [List.forall_mem_append] at h
    exact (Production.ends_build hp h.1).mono fun _ _ hn => List.forall_mem_cons.mpr ⟨hn, h.2⟩
  wrapped wrapper p hp := by
    refine Production.takesIn fun name into e => ?_
    subst e
    cases wrapper <;> simp [Wrapper.productions] at hp
  joined _ := Production.takesIn nofun
  absent _ := nofun
  emptyChain := nofun

/-! ### Nodes are never inverted -/

/-- The leaf is upright, or all nodes of the tree are. -/
def Piece.Upright : Piece → Prop
  | leaf l => l.range.Upright
  | node n => ∀ m : Node, m.Within n → m.range.Upright

theorem Piece.upright_node {n : Node} (hn : n.range.Upright)
    (hc : ∀ c ∈ n.children, (node c).Upright) : (node n).Upright := by
  intro m hm
  rcases Node.within_iff.mp hm with rfl | ⟨child, hmem, hm⟩
  · exact hn
  · exact hc child hmem m hm

section

variable {w w' : Workshop}

/-- Leaves that are written are upright. -/
theorem Spelling.Written.upright {spellings : List Spelling} {written : List Leaf}
    (h : Written spellings w written w') : ∀ l ∈ written, l.range.Upright := by
  induction h with
  | nil w => nofun
  | cons hs _ ih =>
      refine List.forall_mem_cons.mpr ⟨?_, ih⟩
      rw [(run_write_eq_ok hs).2.1]
      exact Nat.le_add_right _ _

/-- A node over upright parts is upright, whatever is put in front of its children afterwards. -/
theorem Build.upright_of_run_node {kind : Kind} {leaves : List Leaf} {children : List Node}
    {rank : Nat} {n : Node} (h : (node kind leaves children rank).run w = .ok (n, w'))
    (first : List Node) (hl : ∀ l ∈ leaves, l.range.Upright)
    (hc : ∀ c ∈ first ++ children, (Piece.node c).Upright) :
    (Piece.node (n.withFirst first)).Upright := by
  obtain ⟨range, hr, rfl, -⟩ := run_node_eq_ok h
  have hparts : ∀ r ∈ leaves.map Leaf.range ++ children.map Node.range, r.Upright := by
    simp only [List.forall_mem_append, List.forall_mem_map]
    exact ⟨hl, fun c hm => hc c (List.mem_append_right _ hm) c (.refl c)⟩
  obtain ⟨t, ht, hup, -⟩ := Range.exists_span? w.nextPos hparts
  cases ht.symm.trans hr
  exact Piece.upright_node hup hc

/-- A slot makes upright parts of upright ones. -/
theorem Slot.Fills.upright {s : Slot} {group parts : List Piece} (h : s.Fills group w parts w')
    (hg : ∀ p ∈ group, p.Upright) : ∀ p ∈ parts, p.Upright := by
  cases h with
  | «open» => exact hg
  | absent => nofun
  | hidden _ _ hn =>
      refine List.forall_mem_singleton.mpr ?_
      have hn' := Build.upright_of_run_node hn [] nofun fun c hc =>
        hg _ (Piece.mem_filterMap_node?.mp hc)
      obtain ⟨range, -, rfl, -⟩ := Build.run_node_eq_ok hn
      exact hn'

theorem Slot.FillsAll.upright {slots : List Slot} {groups : List (List Piece)}
    {attached inner : List Piece} (h : FillsAll slots groups w attached inner w')
    (hg : ∀ p ∈ groups.flatten, p.Upright) : ∀ p ∈ attached ++ inner, p.Upright := by
  induction h with
  | nil w => nofun
  | attached _ _ hf _ ih | inner _ _ hf _ ih =>
      rw [List.flatten_cons, List.forall_mem_append] at hg
      have hparts := hf.upright hg.1
      have hrest := ih hg.2
      simp only [List.forall_mem_append] at hrest ⊢
      tauto

/-- **A production makes upright pieces of upright ones.** -/
theorem Product.Makes.upright {product : Product} {groups : List (List Piece)} {piece : Piece}
    (h : product.Makes groups w piece w') (hg : ∀ p ∈ groups.flatten, p.Upright) :
    piece.Upright := by
  cases h with
  | leaf h =>
      show Range.Upright _
      rw [(Spelling.run_write_eq_ok h).2.1]
      exact Nat.le_add_right _ _
  | word h =>
      obtain ⟨rfl, -⟩ := Build.run_bareNode_eq_ok h
      exact Piece.upright_node (Nat.le_add_right _ _) nofun
  | covering hd h =>
      obtain ⟨rfl, -⟩ := Build.run_bareNode_eq_ok h
      refine Piece.upright_node ?_ nofun
      show Range.Upright _
      rw [(Spelling.run_write_eq_ok hd).2.1]
      exact Nat.le_add_right _ _
  | node hw hf h =>
      have hparts := hf.upright hg
      -- The range is spanned by leaves and children, and all of these are upright.
      refine Build.upright_of_run_node h _ (List.forall_mem_append.mpr ⟨hw.upright, ?_⟩) ?_
      · exact fun l hl => hparts (.leaf l)
          (List.mem_append_right _ (Piece.mem_filterMap_leaf?.mp hl))
      · rw [← List.filterMap_append]
        exact fun c hc => hparts (.node c) (Piece.mem_filterMap_node?.mp hc)

end

/-- So the pieces of a workshop are upright, those with a type attached to them as well. -/
theorem upright_invariant : Invariant fun _ pieces => ∀ p ∈ pieces, p.Upright where
  perm hp h p hm := h p (hp.mem_iff.mpr hm)
  shelf _ h := h
  make _ hm h := by
    rw [List.forall_mem_append] at h
    exact List.forall_mem_cons.mpr ⟨hm.upright h.1, h.2⟩

/-! ### Nodes span their parts -/

/-- No join clause in the form has its type attached to it afterwards. -/
def Form.Unattached (form : Form) : Prop :=
  ∀ f ∈ form.subforms, ∀ name into groups, f ≠ .make (.joinClause name into true) groups

namespace Workshop

/-- How far the values of a workshop extend. -/
structure Extended (w : Workshop) : Prop where
  leaf_upright : ∀ l, .leaf l ∈ w.pieces → l.range.Upright
  /-- Every node with parts extends just as far as they do. -/
  node : ∀ n, w.Holds n → n.Extended
  contains : ∀ n m : Node, w.Holds n → m.Within n → n.range.contains m.range = true
  contains_leaf : ∀ (n m : Node) (l : Leaf), w.Holds n → m.Within n → l ∈ m.leaves →
    n.range.contains l.range = true

/-- **Nodes span their parts.**  Whatever is moved between forms, no node is inverted, and each one
with leaves or children has the smallest range that contains theirs. -/
theorem extended_ofForms {forms : List Form} (h : ∀ form ∈ forms, form.Unattached) :
    ofForms forms ≠ .error .inverted ∧ ∀ w, ofForms forms = .ok w → w.Extended := by
  have hok : ∀ form ∈ forms, ∀ f ∈ form.subforms, ∀ p groups, f = .make p groups → p.TakesIn := by
    rintro form hform f hf p groups rfl
    exact Production.takesIn fun name into e => h form hform _ hf name into groups (e ▸ rfl)
  obtain ⟨hvalues, herror⟩ := extent_law.ofForms hok nofun
  refine ⟨fun e => herror _ e rfl, fun w built => ?_⟩
  have hnode : ∀ n, w.Holds n → ∀ m : Node, m.Within n → m.Extended := by
    rintro n ⟨value, hv, hn⟩ m hm
    exact hvalues w built _ hv m (hm.trans hn)
  exact {
    leaf_upright := fun l hl => hvalues w built _ hl
    node := fun n hn => hnode n hn n (.refl n)
    contains := fun n m hn hm => Node.contains_of_within (hnode n hn) hm
    contains_leaf := fun n m l hn hm hl => Range.contains_trans
      (Node.contains_of_within (hnode n hn) hm) ((hnode n hn m hm).contains_leaf hl) }

end Workshop

/-! ### The expression `!this` -/

/-- The negation reaches from its operand, which was built first, to its token. -/
theorem extended_sampleNegation :
    (∀ form ∈ sampleNegationForms, form.Unattached) ∧
      Workshop.ofForms sampleNegationForms = .ok sampleNegationWorkshop ∧
      sampleNegationWorkshop.Extended := by
  have h : ∀ form ∈ sampleNegationForms, form.Unattached := by
    simp [sampleNegationForms, Form.Unattached, Form.subforms, Form.subformsGroups,
      Form.subformsAll]
  exact ⟨h, ofForms_sampleNegationForms,
    (Workshop.extended_ofForms h).2 _ ofForms_sampleNegationForms⟩

end InlineLocals
