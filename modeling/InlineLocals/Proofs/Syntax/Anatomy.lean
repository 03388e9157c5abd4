import InlineLocals.Proofs.Syntax.Extent
import InlineLocals.Proofs.Syntax.Shape

/-!
# Syntax — Anatomy

What each production spans and what it lists.  All productions are built in one way, by
`Product.make`, which takes the range and the children of a node from the same leaves and slots.
Here the two are written out for every production by itself: `Production.spanned` names the things
that the range of its node is taken from, in the order in which their ranges are collected, and
`Production.listed` names its children in order.  They differ in what they name and in its order: an
operator is spanned after both of its operands, the condition of an arm after its value, the
designation of a pattern is spanned and not listed, and a type that is attached to a join clause is
listed and not spanned.

`Production.agrees` compares both with the grammar, production by production, and
`Form.composed_of_run` says of every node that is built that its range and its children are those of
the two tables.
-/

namespace InlineLocals

/-- Where a production finds a thing that its node is made of. -/
inductive Place where
  /-- Among the leaves that it writes. -/
  | leaf (index : Nat)
  /-- In a slot: the parts, or the node that hides them. -/
  | slot (index : Nat)
deriving DecidableEq

namespace Production

open Place (leaf slot)

/-- What the range of the node is taken from. -/
def spanned : Production → List Place
  | token _ | identifier _ | discardDesignation | thisExpression | discardPattern | defaultLabel
  | breakStatement | continueStatement | emptyStatement => []
  | predefinedType _ | identifierName _ | numericLiteral _ | stringLiteral _ | boolLiteral _
  | nullLiteral => [leaf 0]
  | arrayType _ | nullableType | parenthesized | argument | initializer | constructorInitializer _
  | constantPattern | varPattern | whenClause | whereClause | orderByClause | selectClause | block
  | localDeclaration | expressionStatement | caseLabel | returnStatement | throwStatement =>
    [slot 0]
  | cast | invocation | elementAccess | declarationExpression | isPattern | declarationPattern
  | switchExpression | parenthesizedLambda | simpleLambda | anonymousMethod | groupClause | query
  | variableDeclaration | whileStatement | doStatement | casePatternLabel | switchSection
  | switchStatement | lockStatement => [slot 0, slot 1]
  | conditional | queryBody | ifStatement => [slot 0, slot 1, slot 2]
  | genericName _ | prefixUnary _ | refKindArgument _ | parameter _ | letClause _
  | queryContinuation _ | declarator _ => [leaf 0, slot 0]
  | memberAccess _ => [slot 0, leaf 0]
  | binary _ | assignment => [slot 0, slot 1, leaf 0]
  | objectCreation called filled =>
    [slot 0] ++ (if called then [slot 1] else [])
      ++ (if filled then [slot (if called then 2 else 1)] else [])
  | subpattern name => [slot 0] ++ (if name.isSome then [leaf 0] else [])
  | recursivePattern => [slot 0, slot 1, slot 2, slot 3]
  | switchArm => [slot 0, slot 2, slot 1]
  | fromClause _ => [leaf 0, slot 1, slot 0]
  | joinClause _ into typed =>
    [leaf 0] ++ (if typed then [slot 1, slot 2, slot 3] else [slot 0, slot 1, slot 2])
      ++ (if into.isSome then [leaf 1] else [])
  | forStatement => [slot 0, slot 1, slot 2, slot 3, slot 4]
  | forEachStatement _ => [slot 0, leaf 0, slot 1, slot 2]

/-- The children of the node, in order. -/
def listed : Production → List Place
  | token _ | identifier _ | discardDesignation | predefinedType _ | identifierName _
  | numericLiteral _ | stringLiteral _ | boolLiteral _ | nullLiteral | thisExpression | varPattern
  | discardPattern | defaultLabel | breakStatement | continueStatement | emptyStatement => []
  | genericName _ | arrayType _ | nullableType | parenthesized | prefixUnary _ | memberAccess _
  | argument | refKindArgument _ | initializer | constructorInitializer _ | declarationExpression
  | declarationPattern | constantPattern | subpattern _ | whenClause | parameter _ | letClause _
  | whereClause | orderByClause | selectClause | queryContinuation _ | block | declarator _
  | localDeclaration | expressionStatement | caseLabel | returnStatement | throwStatement =>
    [slot 0]
  | binary _ | assignment | cast | invocation | elementAccess | isPattern | switchExpression
  | parenthesizedLambda | simpleLambda | anonymousMethod | fromClause _ | groupClause | query
  | variableDeclaration | whileStatement | doStatement | casePatternLabel | switchSection
  | switchStatement | lockStatement => [slot 0, slot 1]
  | conditional | recursivePattern | switchArm | queryBody | ifStatement | forEachStatement _ =>
    [slot 0, slot 1, slot 2]
  | objectCreation called filled =>
    [slot 0] ++ (if called then [slot 1] else [])
      ++ (if filled then [slot (if called then 2 else 1)] else [])
  | joinClause _ _ typed =>
    if typed then [slot 0, slot 1, slot 2, slot 3] else [slot 0, slot 1, slot 2]
  | forStatement => [slot 0, slot 1, slot 2, slot 3, slot 4]

end Production

/-! ### The tables agree with the grammar -/

/-- The slots that meet a condition, by their places from `start` on. -/
def Slot.places (meets : Slot → Bool) : Nat → List Slot → List Place
  | _, [] => []
  | start, s :: slots =>
    (if meets s then [.slot start] else []) ++ places meets (start + 1) slots

/-- The slot takes parts into the range of the node, and they are nodes. -/
def Slot.holdsChildren (s : Slot) : Bool := !s.attached && s.category != .designation

/-- A node spans each leaf that it writes and each slot that is not attached, and each of them once.
It lists the slots that take nodes, those that are attached before the others. -/
def Product.agrees (product : Product) (spanned listed : List Place) : Bool :=
  match product with
  | .node _ spellings slots _ =>
    spanned.isPerm
        ((List.range spellings.length).map .leaf ++ Slot.places (fun s => !s.attached) 0 slots) &&
      listed == Slot.places (·.attached) 0 slots ++ Slot.places Slot.holdsChildren 0 slots
  | _ => spanned.isEmpty && listed.isEmpty

/-- **The tables say what the grammar does.** -/
theorem Production.agrees (p : Production) : p.product.agrees p.spanned p.listed = true := by
  cases p with
  | boolLiteral value => cases value <;> rfl
  | objectCreation called filled => cases called <;> cases filled <;> rfl
  | subpattern name => cases name <;> rfl
  | joinClause name into typed => cases into <;> cases typed <;> rfl
  | _ => rfl

/-! ### What a production has at hand -/

/-- The leaves that a production wrote, and what came through each of its slots. -/
structure Material where
  written : List Leaf
  filled : List (List Piece)

namespace Material

/-- What is found at a place. -/
def find (m : Material) : Place → List Piece
  | .leaf index => (m.written[index]?).toList.map .leaf
  | .slot index => m.filled.getD index []

/-- What is found at the places of a list, in their order. -/
def findAll (m : Material) (places : List Place) : List Piece := places.flatMap m.find

theorem findAll_append (m : Material) (places more : List Place) :
    m.findAll (places ++ more) = m.findAll places ++ m.findAll more :=
  List.flatMap_append

theorem findAll_perm (m : Material) {places more : List Place} (h : places.Perm more) :
    (m.findAll places).Perm (m.findAll more) :=
  h.flatMap_right m.find

/-- All leaves by their places are all leaves. -/
theorem findAll_leaves (m : Material) :
    m.findAll ((List.range m.written.length).map .leaf) = m.written.map .leaf := by
  obtain ⟨written, filled⟩ := m
  have hall : ∀ leaves : List Leaf,
      (List.range leaves.length).flatMap (fun k => (leaves[k]?).toList) = leaves := by
    intro leaves
    induction leaves with
    | nil => rfl
    | cons leaf leaves ih =>
        rw [List.length_cons, List.range_succ_eq_map, List.flatMap_cons, List.flatMap_map]
        simpa using ih
  conv => rhs; rw [← hall written]
  rw [findAll, List.flatMap_map, List.map_flatMap]
  rfl

end Material

/-- What comes through each slot by itself. -/
inductive Slot.FillsEach :
    List Slot → List (List Piece) → Workshop → List (List Piece) → Workshop → Prop where
  | nil (w : Workshop) : FillsEach [] [] w [] w
  | cons {s : Slot} {slots : List Slot} {group parts : List Piece}
      {groups filled : List (List Piece)} {w v w' : Workshop} (h : s.Fills group w parts v)
      (t : FillsEach slots groups v filled w') :
      FillsEach (s :: slots) (group :: groups) w (parts :: filled) w'

/-- A slot for anything but designations contributes nodes alone. -/
theorem Slot.Fills.map_node {s : Slot} {group parts : List Piece} {w w' : Workshop}
    (h : s.Fills group w parts w') (ha : s.admits group = true) (hc : s.category ≠ .designation) :
    (parts.filterMap Piece.node?).map .node = parts := by
  cases h with
  | absent | hidden => rfl
  | «open» =>
      obtain ⟨ns, rfl⟩ := Slot.exists_nodes ha hc
      rw [filterMap_node?_map_node]

/-- A slot for designations contributes no nodes. -/
theorem Slot.Fills.node?_eq_nil {s : Slot} {group parts : List Piece} {w w' : Workshop}
    (h : s.Fills group w parts w') (ha : s.admits group = true) (hs : s.sound = true)
    (hc : s.category = .designation) : parts.filterMap Piece.node? = [] := by
  obtain ⟨-, leaves, rfl, -⟩ := h.leaves ha hs hc
  exact filterMap_node?_map_leaf leaves

/-- What is found in the slots, from the place on at which they begin, is what they contribute
together: the parts that are attached, the others, and the nodes among these. -/
theorem Slot.FillsAll.exists_filled {slots : List Slot} {groups : List (List Piece)}
    {attached inner : List Piece} {w w' : Workshop}
    (h : FillsAll slots groups w attached inner w') (hs : slots.all Slot.sound = true) :
    ∃ filled, FillsEach slots groups w filled w' ∧
      ∀ (written : List Leaf) (before : List (List Piece)),
        let m : Material := ⟨written, before ++ filled⟩
        m.findAll (places (·.attached) before.length slots) = attached ∧
        m.findAll (places (fun s => !s.attached) before.length slots) = inner ∧
        (attached.filterMap Piece.node?).map .node = attached ∧
        m.findAll (places holdsChildren before.length slots) =
          (inner.filterMap Piece.node?).map .node := by
  induction h with
  | nil w => exact ⟨[], .nil w, fun _ _ => ⟨rfl, rfl, rfl, rfl⟩⟩
  | @attached s slots _ _ parts _ _ _ _ _ hatt ha hf _ ih =>
      rw [List.all_cons, Bool.and_eq_true] at hs
      obtain ⟨filled, heach, hfound⟩ := ih hs.2
      refine ⟨parts :: filled, .cons hf heach, fun written before => ?_⟩
      obtain ⟨hatts, hinner, hnodes, hchildren⟩ := hfound written (before ++ [parts])
      have hparts := hf.map_node ha (Slot.sound_attached hatt hs.1)
      rw [List.append_assoc, List.singleton_append, List.length_append, List.length_singleton]
        at hatts hinner hchildren
      simp only [places, holdsChildren, hatt, Material.findAll_append]
      refine ⟨?_, hinner, ?_, hchildren⟩
      · rw [hatts]
        simp [Material.findAll, Material.find]
      · rw [List.filterMap_append, List.map_append, hnodes, hparts]
  | @inner s slots _ _ parts _ _ _ _ _ hatt ha hf _ ih =>
      rw [List.all_cons, Bool.and_eq_true] at hs
      obtain ⟨filled, heach, hfound⟩ := ih hs.2
      refine ⟨parts :: filled, .cons hf heach, fun written before => ?_⟩
      obtain ⟨hatts, hinner, hnodes, hchildren⟩ := hfound written (before ++ [parts])
      rw [List.append_assoc, List.singleton_append, List.length_append, List.length_singleton]
        at hatts hinner hchildren
      simp only [places, holdsChildren, hatt, Material.findAll_append]
      refine ⟨hatts, ?_, hnodes, ?_⟩
      · rw [hinner]
        simp [Material.findAll, Material.find]
      · -- Designations are among the parts, and not among the nodes.
        rw [List.filterMap_append, List.map_append]
        refine congrArg₂ (· ++ ·) ?_ hchildren
        by_cases hc : s.category = .designation
        · rw [hf.node?_eq_nil ha hs.1 hc]
          simp [hc, Material.findAll]
        · rw [hf.map_node ha hc]
          simp [hc, Material.findAll, Material.find]

/-! ### Nodes as the tables say -/

/-- The children of the node are what is listed, and its range is the span of what is spanned, or
the empty one at `origin` when there is nothing to span. -/
structure Node.Composed (n : Node) (p : Production) (m : Material) (origin : Nat) : Prop where
  children : n.children.map Piece.node = m.findAll p.listed
  range : Range.span? origin ((m.findAll p.spanned).map Piece.range) = some n.range

theorem Piece.upright_range {p : Piece} (h : p.Upright) : p.range.Upright := by
  cases p with
  | leaf l => exact h
  | node n => exact h n (.refl n)

theorem Spelling.Written.length_eq {spellings : List Spelling} {written : List Leaf}
    {w w' : Workshop} (h : Written spellings w written w') :
    written.length = spellings.length := by
  induction h with
  | nil w => rfl
  | cons _ _ ih => exact congrArg (· + 1) ih

/-- The pieces are the leaves and the nodes among them. -/
theorem Piece.mem_map_range {pieces : List Piece} {r : Range} : r ∈ pieces.map range ↔
    r ∈ (pieces.filterMap leaf?).map Leaf.range ++ (pieces.filterMap node?).map Node.range := by
  simp only [List.mem_append, List.mem_map, mem_filterMap_leaf?, mem_filterMap_node?]
  constructor
  · rintro ⟨p, hp, rfl⟩
    cases p with
    | leaf l => exact .inl ⟨l, hp, rfl⟩
    | node n => exact .inr ⟨n, hp, rfl⟩
  · rintro (⟨l, hl, rfl⟩ | ⟨n, hn, rfl⟩)
    · exact ⟨.leaf l, hl, rfl⟩
    · exact ⟨.node n, hn, rfl⟩

/-- **A production makes its node as the tables say**, out of upright parts. -/
theorem Production.composed_of_makes {p : Production} {kind : Kind} {spellings : List Spelling}
    {slots : List Slot} {rank : Nat} (hp : p.product = .node kind spellings slots rank)
    (ha : p.Allowed) {groups : List (List Piece)} {n : Node} {w w' : Workshop}
    (h : p.product.Makes groups w (.node n) w') (hg : ∀ q ∈ groups.flatten, q.Upright) :
    ∃ m v u, Spelling.Written spellings w m.written v ∧ Slot.FillsEach slots groups v m.filled u ∧
      n.kind = kind ∧ n.Composed p m w'.nextPos := by
  have hfollows := Production.follows ha
  have hagrees := p.agrees
  rw [hp] at h hfollows hagrees
  cases h with
  | @node _ _ _ _ _ written attached inner _ _ v u _ hw hf h =>
      simp only [Product.follows, Product.agrees, Bool.and_eq_true, List.isPerm_iff, beq_iff_eq]
        at hfollows hagrees
      obtain ⟨hspanned, hlisted⟩ := hagrees
      obtain ⟨filled, heach, hfound⟩ := hf.exists_filled hfollows.1.1
      let m : Material := ⟨written, filled⟩
      obtain ⟨hatts, hinner, hnodes, hchildren⟩ := hfound written []
      rw [List.nil_append, List.length_nil] at hatts hinner hchildren
      have hwritten : m.findAll ((List.range spellings.length).map .leaf) = written.map .leaf :=
        hw.length_eq ▸ m.findAll_leaves
      have hperm := m.findAll_perm hspanned
      rw [Material.findAll_append, hwritten, hinner] at hperm
      obtain ⟨range, hr, rfl, rfl⟩ := Build.run_node_eq_ok h
      refine ⟨m, v, u, hw, heach, rfl, ?_, ?_⟩
      · rw [hlisted, Material.findAll_append, hatts, hchildren, Node.withFirst, Node.children,
          List.map_append, hnodes]
      · -- What is spanned is what the node was built over, in another order.
        have hmem (r : Range) : r ∈ (m.findAll p.spanned).map Piece.range ↔
            r ∈ (written ++ inner.filterMap Piece.leaf?).map Leaf.range ++
              (inner.filterMap Piece.node?).map Node.range := by
          rw [(hperm.map Piece.range).mem_iff, Piece.mem_map_range, List.filterMap_append,
            List.filterMap_append, filterMap_leaf?_map_leaf, filterMap_node?_map_leaf,
            List.nil_append]
        have hup (r : Range) (hmr : r ∈ (m.findAll p.spanned).map Piece.range) : r.Upright := by
          obtain ⟨piece, hpiece, rfl⟩ := List.mem_map.mp hmr
          rcases List.mem_append.mp (hperm.mem_iff.mp hpiece) with hpiece | hpiece
          · obtain ⟨l, hl, rfl⟩ := List.mem_map.mp hpiece
            exact hw.upright l hl
          · exact Piece.upright_range (hf.upright hg _ (List.mem_append_right _ hpiece))
        exact Range.span?_congr hup hmem ▸ hr

/-- **What nodes are made of.**  Whatever production a form applies to the values of its parts, the
children of the node are those that the production lists, and its range spans just what the
production spans. -/
theorem Form.composed_of_run {forms : List Form} {w : Workshop}
    (built : Workshop.ofForms forms = .ok w) {p : Production} {kind : Kind}
    {spellings : List Spelling} {slots : List Slot} {rank : Nat}
    (hp : p.product = .node kind spellings slots rank) {groups : List (List Form)} {n : Node}
    {w' : Workshop} (run : (make p groups).eval.run w = .ok (.node n, w')) :
    ∃ pieces m u v v', (evalGroups groups).run w = .ok (pieces, u) ∧
      Spelling.Written spellings u m.written v ∧ Slot.FillsEach slots pieces v m.filled v' ∧
      n.kind = kind ∧ n.Composed p m w'.nextPos := by
  rw [eval] at run
  obtain ⟨pieces, u, hgroups, hbuild⟩ := Build.run_bind_eq_ok run
  obtain ⟨ha, hm⟩ := Production.makes_of_run hbuild
  have hup : ∀ q ∈ [] ++ pieces.flatten ++ u.pieces, q.Upright :=
    (@Records.evalGroups _ _ _ upright_invariant.law.chronicle.records groups [] [] w
      (fun _ _ _ _ _ => trivial) (upright_invariant.ofForms built nofun)).of_ok hgroups
  obtain ⟨m, v, v', hwritten, hfilled, hkind, hcomposed⟩ :=
    Production.composed_of_makes hp ha hm fun q hq =>
      hup q (List.mem_append_left _ (List.mem_append_right _ hq))
  exact ⟨pieces, m, u, v, v', hgroups, hwritten, hfilled, hkind, hcomposed⟩

end InlineLocals
