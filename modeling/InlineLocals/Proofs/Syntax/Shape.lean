import InlineLocals.Proofs.Syntax.Evaluation
import InlineLocals.Proofs.Syntax.Path
import Mathlib.Data.Set.List

/-!
# Syntax — Shape

What a node of a kind holds.  `Kind.rooms` lists, for every kind, the leaves and the children of
its nodes: how many there are and of which category or kind each of them is.  A node is shaped
when its leaves and children fit the rooms of its kind, and grammatical when all nodes within it
are shaped.

The productions say which parts a node takes and in which order they are built.  The rooms say
what came of it: hidden nodes stand in the place of their parts, attached parts come first, and
two productions of one kind share its rooms.  `Production.follows` checks each production against
the rooms of its kind, and `grammatical_invariant` concludes that every piece of every workshop is
grammatical.
-/

namespace InlineLocals

/-! ### Rooms -/

/-- What a leaf or a child of a node is. -/
inductive Part where
  | token
  | identifier
  /-- Anything of a category. -/
  | of (category : Category)
  /-- A node of one kind. -/
  | node (kind : Kind)
deriving DecidableEq

namespace Part

/-- The part is a leaf, as opposed to a child. -/
def isLeaf : Part → Bool
  | token | identifier | of .designation => true
  | _ => false

/-- The leaf is such a part. -/
def admitsLeaf : Part → Leaf → Bool
  | token, .token _ => true
  | identifier, .identifier _ => true
  | of category, leaf => category.admits (.leaf leaf)
  | _, _ => false

/-- A node of the kind is such a part. -/
def admitsKind : Part → Kind → Bool
  | of category, kind => category.hasKind kind
  | node kind, other => other == kind
  | _, _ => false

def admitsNode (part : Part) (n : Node) : Bool := part.admitsKind n.kind

end Part

/-- A stretch of the leaves or of the children of a node. -/
structure Room where
  arity : Arity
  part : Part
deriving DecidableEq

namespace Room

/-- Room for exactly one part. -/
def one (part : Part) : Room := ⟨.one, part⟩

/-- Room for one part or none. -/
def optional (part : Part) : Room := ⟨.optional, part⟩

/-- Room for any number of parts. -/
def many (part : Part) : Room := ⟨.many, part⟩

variable {α : Type}

/-- The list falls into one stretch for each room, in order. -/
def Fit (admits : Part → α → Bool) : List Room → List α → Prop
  | [], xs => xs = []
  | room :: rooms, xs => ∃ front back, xs = front ++ back ∧
      room.arity.admits front.length = true ∧ (∀ x ∈ front, admits room.part x = true) ∧
      Fit admits rooms back

/-- Whatever fits the first rooms fits the others. -/
def narrows : List Room → List Room → Bool
  | [], others => others.all (·.arity != .one)
  | _ :: _, [] => false
  | room :: rooms, other :: others =>
    (room.part == other.part && (room.arity == other.arity ||
      (room.arity == .one && other.arity == .optional)) && narrows rooms others) ||
    (other.arity != .one && narrows (room :: rooms) others)

theorem admits_zero {arity : Arity} (h : arity ≠ .one) : arity.admits 0 = true := by
  cases arity with
  | one => exact absurd rfl h
  | optional | many => rfl

/-- Nothing fits rooms that need not be filled. -/
theorem fit_nil_right {admits : Part → α → Bool} : ∀ {rooms : List Room},
    rooms.all (·.arity != .one) = true → Fit admits rooms []
  | [], _ => rfl
  | room :: rooms, h => by
      simp only [List.all_cons, Bool.and_eq_true, bne_iff_ne] at h
      exact ⟨[], [], rfl, admits_zero h.1, nofun, fit_nil_right h.2⟩

/-- The check is sound: what fits the narrower rooms fits the wider ones. -/
theorem Fit.of_narrows {admits : Part → α → Bool} {xs : List α} : ∀ {rooms others : List Room},
    narrows rooms others = true → Fit admits rooms xs → Fit admits others xs
  | [], others, h, hf => by
      rw [Fit] at hf
      rw [narrows] at h
      exact hf ▸ fit_nil_right h
  | room :: rooms, other :: others, h, hf => by
      simp only [narrows, Bool.or_eq_true, Bool.and_eq_true, beq_iff_eq, bne_iff_ne] at h
      rcases h with ⟨⟨hp, ha⟩, h⟩ | ⟨ha, h⟩
      · obtain ⟨front, back, e, hf, hx, hb⟩ := hf
        refine ⟨front, back, e, ?_, hp ▸ hx, hb.of_narrows h⟩
        rcases ha with ha | ⟨ho, ha⟩
        · exact ha ▸ hf
        · rw [ho] at hf
          rw [ha]
          simpa [Arity.admits] using Nat.le_of_eq (beq_iff_eq.mp hf)
      -- The wider rooms begin with one that may stay empty.
      · exact ⟨[], xs, rfl, admits_zero ha, nofun, hf.of_narrows h⟩

/-- Lists that fit fit the rooms of both together. -/
theorem Fit.append {admits : Part → α → Bool} {ys : List α} {others : List Room}
    (hy : Fit admits others ys) : ∀ {rooms : List Room} {xs : List α},
      Fit admits rooms xs → Fit admits (rooms ++ others) (xs ++ ys)
  | [], _, hf => by
      rw [Fit] at hf
      exact hf ▸ hy
  | _ :: _, _, ⟨front, back, e, ha, hp, hf⟩ =>
      ⟨front, back ++ ys, by rw [e, List.append_assoc], ha, hp, .append hy hf⟩

end Room

namespace Kind

open Room (one optional many)
open InlineLocals.Part (token identifier of node)

/-- What a node of each kind holds: its leaves, and then its children. -/
def rooms : Kind → List Room
  | .identifierName => [one identifier]
  | .genericName => [one identifier, many (of .type)]
  | .predefinedType | .numericLiteralExpression | .stringLiteralExpression
  | .trueLiteralExpression | .falseLiteralExpression | .nullLiteralExpression => [one token]
  | .arrayType | .nullableType => [one (of .type)]
  | .binaryExpression | .assignmentExpression =>
    [one token, one (of .expression), one (of .expression)]
  | .prefixUnaryExpression => [one token, one (of .expression)]
  | .castExpression => [one (of .type), one (of .expression)]
  | .conditionalExpression =>
    [one (of .expression), one (of .expression), one (of .expression)]
  | .simpleMemberAccessExpression | .letClause => [one identifier, one (of .expression)]
  | .argument => [optional token, one (of .expression)]
  | .argumentList | .bracketedArgumentList => [many (of .argument)]
  | .invocationExpression => [one (of .expression), one (node .argumentList)]
  | .elementAccessExpression => [one (of .expression), one (node .bracketedArgumentList)]
  | .objectCreationExpression =>
    [one (of .type), optional (node .argumentList), optional (node .initializerExpression)]
  | .initializerExpression | .orderByClause => [many (of .expression)]
  | .thisConstructorInitializer | .baseConstructorInitializer => [one (node .argumentList)]
  | .declarationExpression | .declarationPattern => [one (of .designation), one (of .type)]
  | .varPattern => [one (of .designation)]
  | .recursivePattern =>
    [optional (of .designation), optional (of .type), many (of .subpattern),
      many (of .subpattern)]
  | .subpattern => [optional identifier, one (of .pattern)]
  | .isPatternExpression => [one (of .expression), one (of .pattern)]
  | .switchExpression => [one (of .expression), many (of .switchArm)]
  | .switchExpressionArm =>
    [one (of .pattern), optional (node .whenClause), one (of .expression)]
  | .parameter => [one identifier, optional (of .type)]
  | .parenthesizedLambdaExpression => [many (of .parameter), one (of .lambdaBody)]
  | .simpleLambdaExpression => [one (of .parameter), one (of .lambdaBody)]
  | .anonymousMethodExpression => [many (of .parameter), one (node .block)]
  | .fromClause => [one identifier, optional (of .type), one (of .expression)]
  | .joinClause =>
    [one identifier, optional identifier, optional (of .type), one (of .expression),
      one (of .expression), one (of .expression)]
  | .groupClause => [one (of .expression), one (of .expression)]
  | .queryBody =>
    [many (of .queryClause), one (of .selectOrGroup), optional (of .continuation)]
  | .queryContinuation => [one identifier, one (of .queryBody)]
  | .queryExpression => [one (of .fromClause), one (of .queryBody)]
  | .block => [many (of .statement)]
  | .variableDeclarator => [one identifier, optional (of .expression)]
  | .variableDeclaration => [one (of .type), many (of .declarator)]
  | .localDeclarationStatement => [one (of .variableDeclaration)]
  | .ifStatement =>
    [one (of .expression), one (of .statement), optional (of .statement)]
  | .whileStatement | .lockStatement => [one (of .expression), one (of .statement)]
  | .doStatement => [one (of .statement), one (of .expression)]
  | .forStatement =>
    [optional (of .variableDeclaration), many (of .expression), optional (of .expression),
      many (of .expression), one (of .statement)]
  | .forEachStatement =>
    [one identifier, one (of .type), one (of .expression), one (of .statement)]
  | .casePatternSwitchLabel => [one (of .pattern), optional (node .whenClause)]
  | .switchSection => [many (of .switchLabel), many (of .statement)]
  | .switchStatement => [one (of .expression), many (of .switchSection)]
  | .returnStatement | .throwStatement => [optional (of .expression)]
  | .parenthesizedExpression | .constantPattern | .whenClause | .whereClause | .selectClause
  | .expressionStatement | .caseSwitchLabel => [one (of .expression)]
  | _ => []

end Kind

/-! ### The productions follow the rooms -/

/-- The room for the parts that come through a slot. -/
def Slot.room (s : Slot) : Room :=
  match s.hidden with
  | none => ⟨s.arity, .of s.category⟩
  | some kind => ⟨if s.arity = .optional then .optional else .one, .node kind⟩

/-- The room for the leaf that is written. -/
def Spelling.room : Spelling → Room
  | token _ _ => .one .token
  | identifier _ => .one .identifier
  | discard => .one (.of .designation)

/-- A slot for leaves is neither hidden nor attached, and the parts of a hidden slot are what its
kind of node has room for. -/
def Slot.sound (s : Slot) : Bool :=
  match s.hidden with
  | none => !s.attached || s.category != .designation
  | some kind => s.category != .designation &&
      kind.rooms == [⟨if s.arity = .optional then .one else s.arity, .of s.category⟩]

/-- The rooms for the leaves of a node: those that it writes come before its designations. -/
def Slot.leafRooms (spellings : List Spelling) (slots : List Slot) : List Room :=
  spellings.map Spelling.room ++ (slots.filter (·.category == .designation)).map room

/-- The rooms for the children of a node: those that are attached come first. -/
def Slot.childRooms (slots : List Slot) : List Room :=
  (slots.filter (·.attached)).map room ++
    (slots.filter fun s => !s.attached && s.category != .designation).map room

/-- The rooms for leaves. -/
def Kind.leafRooms (kind : Kind) : List Room := kind.rooms.filter (·.part.isLeaf)

/-- The rooms for children. -/
def Kind.childRooms (kind : Kind) : List Room := kind.rooms.filter (!·.part.isLeaf)

/-- What the product puts into a node fits the rooms of the node's kind. -/
def Product.follows : Product → Bool
  | leaf _ => true
  | word kind _ | covering kind _ => kind.rooms.isEmpty
  | node kind spellings slots _ => slots.all Slot.sound &&
    Room.narrows (Slot.leafRooms spellings slots) kind.leafRooms &&
    Room.narrows (Slot.childRooms slots) kind.childRooms

/-- Every production follows the rooms. -/
theorem Production.follows {p : Production} (h : p.Allowed) : p.product.follows = true := by
  cases p with
  | boolLiteral value => cases value <;> rfl
  | objectCreation called filled => cases called <;> cases filled <;> rfl
  | subpattern name => cases name <;> rfl
  | joinClause name into typed => cases into <;> cases typed <;> rfl
  | constructorInitializer kind =>
      rcases Kind.isConstructorInitializer_iff.mp (h kind rfl) with rfl | rfl <;> rfl
  | _ => rfl

/-! ### Shaped nodes -/

namespace Node

/-- The node holds what its kind says. -/
structure Shaped (n : Node) : Prop where
  leaves : Room.Fit Part.admitsLeaf n.kind.leafRooms n.leaves
  children : Room.Fit Part.admitsNode n.kind.childRooms n.children

/-- The node and all nodes below it hold what their kinds say. -/
def Grammatical (n : Node) : Prop := ∀ m : Node, m.Within n → m.Shaped

theorem Grammatical.shaped {n : Node} (h : n.Grammatical) : n.Shaped := h n (.refl n)

/-- What lies within a grammatical tree is grammatical. -/
theorem Grammatical.within {m n : Node} (h : n.Grammatical) (hm : m.Within n) : m.Grammatical :=
  fun _ hk => h _ (hk.trans hm)

theorem Grammatical.child {c n : Node} (h : n.Grammatical) (hc : c ∈ n.children) :
    c.Grammatical :=
  h.within (within_of_mem_children hc)

/-- A shaped node over grammatical children is grammatical. -/
theorem grammatical_of_children {n : Node} (hn : n.Shaped)
    (h : ∀ child ∈ n.children, child.Grammatical) : n.Grammatical := by
  intro m hm
  rcases within_iff.mp hm with rfl | ⟨child, hc, hm⟩
  · exact hn
  · exact h child hc m hm

end Node

/-- Designations are leaves. -/
theorem Category.exists_leaf {piece : Piece} (h : designation.admits piece = true) :
    ∃ leaf, Piece.leaf leaf = piece := by
  cases piece with
  | leaf leaf => exact ⟨leaf, rfl⟩
  | node n => cases h

/-- Whatever is not a designation is a node. -/
theorem Category.exists_node {category : Category} (hc : category ≠ .designation) {piece : Piece}
    (h : category.admits piece = true) : ∃ n, Piece.node n = piece := by
  cases piece with
  | node n => exact ⟨n, rfl⟩
  | leaf leaf =>
      cases leaf with
      | token info => cases h
      | identifier _ | discard _ _ => exact absurd (beq_iff_eq.mp h) hc

/-- A list of values is the image of a list when each of its members is a value. -/
theorem exists_map_eq {α β : Type} {f : α → β} {ys : List β} (h : ∀ y ∈ ys, ∃ x, f x = y) :
    ∃ xs, List.map f xs = ys := by
  have hr : ys ∈ Set.range (List.map f) := by
    rw [Set.range_list_map]
    exact h
  exact hr

theorem filterMap_leaf?_map_leaf (leaves : List Leaf) :
    (leaves.map Piece.leaf).filterMap Piece.leaf? = leaves := by
  rw [List.filterMap_map]
  exact List.filterMap_some

theorem filterMap_node?_map_leaf (leaves : List Leaf) :
    (leaves.map Piece.leaf).filterMap Piece.node? = [] := by
  rw [List.filterMap_map]
  exact List.filterMap_eq_nil_iff.mpr fun _ _ => rfl

theorem filterMap_leaf?_map_node (ns : List Node) :
    (ns.map Piece.node).filterMap Piece.leaf? = [] := by
  rw [List.filterMap_map]
  exact List.filterMap_eq_nil_iff.mpr fun _ _ => rfl

theorem filterMap_node?_map_node (ns : List Node) :
    (ns.map Piece.node).filterMap Piece.node? = ns := by
  rw [List.filterMap_map]
  exact List.filterMap_some

theorem Slot.admits_iff {s : Slot} {group : List Piece} : s.admits group = true ↔
    s.arity.admits group.length = true ∧ ∀ piece ∈ group, s.category.admits piece = true := by
  rw [Slot.admits, Bool.and_eq_true, List.all_eq_true]

/-- A group of anything but designations is a list of nodes. -/
theorem Slot.exists_nodes {s : Slot} {group : List Piece} (ha : s.admits group = true)
    (hc : s.category ≠ .designation) : ∃ ns, List.map Piece.node ns = group :=
  exists_map_eq fun piece hp => Category.exists_node hc ((Slot.admits_iff.mp ha).2 piece hp)

/-- A hidden node has room for what its slot takes. -/
theorem Slot.sound_hidden {s : Slot} {kind : Kind} (hh : s.hidden = some kind)
    (hs : s.sound = true) : s.category ≠ .designation ∧
      kind.rooms = [⟨if s.arity = .optional then .one else s.arity, .of s.category⟩] := by
  simpa [Slot.sound, hh] using hs

/-- Only nodes are attached. -/
theorem Slot.sound_attached {s : Slot} (hatt : s.attached = true) (hs : s.sound = true) :
    s.category ≠ .designation := by
  cases hh : s.hidden with
  | none => simpa [Slot.sound, hh, hatt] using hs
  | some kind => exact (Slot.sound_hidden hh hs).1

/-- A slot for designations contributes leaves. -/
theorem Slot.Fills.leaves {s : Slot} {group parts : List Piece} {w w' : Workshop}
    (h : s.Fills group w parts w') (ha : s.admits group = true) (hs : s.sound = true)
    (hc : s.category = .designation) : s.attached = false ∧
      ∃ leaves, parts = leaves.map Piece.leaf ∧ Room.Fit Part.admitsLeaf [s.room] leaves := by
  have hn : s.hidden = none := by
    cases hh : s.hidden with
    | none => rfl
    | some kind => simp [Slot.sound, hh, hc] at hs
  rw [Slot.admits_iff, hc] at ha
  cases h with
  | absent hh _ | hidden hh _ _ => rw [hn] at hh; cases hh
  | «open» _ =>
      refine ⟨by simpa [Slot.sound, hn, hc] using hs, ?_⟩
      obtain ⟨leaves, rfl⟩ := exists_map_eq fun piece hp => Category.exists_leaf (ha.2 piece hp)
      refine ⟨leaves, rfl, leaves, [], by simp, ?_, ?_, rfl⟩
      · simpa [Slot.room, hn] using ha.1
      · intro leaf hl
        simpa [Slot.room, hn, hc, Part.admitsLeaf] using ha.2 _ (List.mem_map_of_mem hl)

/-- The node that hides the parts of a slot holds what its kind says. -/
theorem Slot.hidden_shaped {s : Slot} {kind : Kind} {group : List Node} {w w' : Workshop} {n : Node}
    (hk : s.hidden = some kind) (hs : s.sound = true)
    (ha : s.admits (group.map Piece.node) = true) (hne : s.arity = .optional → group ≠ [])
    (h : (Build.node kind [] group 0).run w = .ok (n, w')) : n.Shaped := by
  obtain ⟨range, -, rfl, -⟩ := Build.run_node_eq_ok h
  obtain ⟨hc, hr⟩ := Slot.sound_hidden hk hs
  rw [Slot.admits_iff, List.length_map] at ha
  have hl : Part.isLeaf (.of s.category) = false := by
    cases hcat : s.category with
    | designation => exact absurd hcat hc
    | _ => rfl
  refine ⟨?_, ?_⟩
  · simp [Kind.leafRooms, Node.kind, Node.label, hr, hl, Room.Fit, Node.leaves]
  · have hrooms : Kind.childRooms kind = kind.rooms := by simp [Kind.childRooms, hr, hl]
    show Room.Fit _ kind.childRooms group
    rw [hrooms, hr]
    -- An optional slot hides a node only over a part, so the hidden node never lacks it.
    refine ⟨group, [], by simp, ?_, ?_, rfl⟩
    · split
      · next ho =>
        have hle := ha.1
        rw [ho] at hle
        have := List.length_pos_iff.mpr (hne ho)
        simp only [Arity.admits, decide_eq_true_eq, beq_iff_eq] at hle ⊢
        omega
      · exact ha.1
    · intro m hm
      exact ha.2 _ (List.mem_map_of_mem hm)

/-- A slot for other parts contributes nodes. -/
theorem Slot.Fills.nodes {s : Slot} {group parts : List Piece} {w w' : Workshop}
    (h : s.Fills group w parts w') (ha : s.admits group = true) (hs : s.sound = true)
    (hc : s.category ≠ .designation) (hg : ∀ n, Piece.node n ∈ group → n.Grammatical) :
    ∃ ns, parts = ns.map Piece.node ∧ Room.Fit Part.admitsNode [s.room] ns ∧
      ∀ n ∈ ns, n.Grammatical := by
  obtain ⟨ns, e⟩ := Slot.exists_nodes ha hc
  have hns : ∀ n ∈ ns, n.Grammatical := fun n hn => hg n (e ▸ List.mem_map_of_mem hn)
  cases h with
  | «open» hh =>
      subst e
      rw [Slot.admits_iff, List.length_map] at ha
      refine ⟨ns, rfl, ⟨ns, [], by simp, ?_, ?_, rfl⟩, hns⟩
      · simpa [Slot.room, hh] using ha.1
      · intro n hn
        simp only [Slot.room, hh]
        exact ha.2 _ (List.mem_map_of_mem hn)
  | absent hh ho =>
      refine ⟨[], by simp, ⟨[], [], rfl, ?_, nofun, rfl⟩, nofun⟩
      simp [Slot.room, hh, ho, Arity.admits]
  | hidden hh hne hn =>
      subst e
      rw [filterMap_node?_map_node] at hn
      have hshape := hidden_shaped hh hs ha (fun ho => by simpa using hne ho) hn
      obtain ⟨range, -, rfl, -⟩ := Build.run_node_eq_ok hn
      refine ⟨[_], rfl, ⟨[_], [], rfl, ?_, ?_, rfl⟩, ?_⟩
      · simp only [Slot.room, hh]
        split <;> rfl
      · intro m hm
        obtain rfl := List.mem_singleton.mp hm
        simp [Slot.room, hh, Part.admitsNode, Part.admitsKind, Node.kind, Node.label]
      · intro m hm
        obtain rfl := List.mem_singleton.mp hm
        exact Node.grammatical_of_children hshape hns

/-- What the slots of a node contribute together. -/
theorem Slot.FillsAll.fit {slots : List Slot} {groups : List (List Piece)}
    {attached inner : List Piece} {w w' : Workshop}
    (h : FillsAll slots groups w attached inner w') (hs : slots.all Slot.sound = true)
    (hg : ∀ n, Piece.node n ∈ groups.flatten → n.Grammatical) :
    Room.Fit Part.admitsLeaf ((slots.filter (·.category == .designation)).map room)
        (inner.filterMap Piece.leaf?) ∧
      Room.Fit Part.admitsNode ((slots.filter (·.attached)).map room)
        (attached.filterMap Piece.node?) ∧
      Room.Fit Part.admitsNode
        ((slots.filter fun s => !s.attached && s.category != .designation).map room)
        (inner.filterMap Piece.node?) ∧
      ∀ n ∈ attached.filterMap Piece.node? ++ inner.filterMap Piece.node?, n.Grammatical := by
  induction h with
  | nil w => exact ⟨rfl, rfl, rfl, nofun⟩
  | @attached s slots group groups parts attached inner w v w' hatt ha h _ ih =>
      rw [List.all_cons, Bool.and_eq_true] at hs
      obtain ⟨hl, hat, hin, hgr⟩ := ih hs.2 fun n hn =>
        hg n (List.mem_append_right _ hn)
      have hc := Slot.sound_attached hatt hs.1
      obtain ⟨ns, rfl, hfit, hns⟩ := h.nodes ha hs.1 hc fun n hn =>
        hg n (List.mem_append_left _ hn)
      rw [List.filterMap_append, filterMap_node?_map_node]
      refine ⟨?_, ?_, ?_, ?_⟩
      · simpa [hc] using hl
      · rw [List.filter_cons_of_pos hatt]
        exact .append hat hfit
      · simpa [hatt] using hin
      · intro n hn
        rw [List.append_assoc] at hn
        rcases List.mem_append.mp hn with hn | hn
        · exact hns n hn
        · exact hgr n hn
  | @inner s slots group groups parts attached inner w v w' hatt ha h _ ih =>
      rw [List.all_cons, Bool.and_eq_true] at hs
      obtain ⟨hl, hat, hin, hgr⟩ := ih hs.2 fun n hn =>
        hg n (List.mem_append_right _ hn)
      rw [List.filterMap_append, List.filterMap_append]
      -- A slot for designations adds to the leaves, and any other one to the children.
      by_cases hc : s.category = .designation
      · obtain ⟨-, leaves, rfl, hfit⟩ := h.leaves ha hs.1 hc
        rw [filterMap_leaf?_map_leaf, filterMap_node?_map_leaf]
        refine ⟨?_, ?_, ?_, hgr⟩
        · rw [List.filter_cons_of_pos (by simp [hc])]
          exact .append hl hfit
        · simpa [hatt] using hat
        · simpa [hc] using hin
      · obtain ⟨ns, rfl, hfit, hns⟩ := h.nodes ha hs.1 hc fun n hn =>
          hg n (List.mem_append_left _ hn)
        rw [filterMap_leaf?_map_node, filterMap_node?_map_node]
        refine ⟨?_, ?_, ?_, ?_⟩
        · simpa [hc] using hl
        · simpa [hatt] using hat
        · rw [List.filter_cons_of_pos (by simp [hatt, hc])]
          exact .append hin hfit
        · intro n hn
          simp only [List.mem_append] at hn hgr
          rcases hn with hn | hn | hn
          · exact hgr n (.inl hn)
          · exact hns n hn
          · exact hgr n (.inr hn)

/-- The leaves that are written fit the rooms of their spellings. -/
theorem Spelling.Written.fit {spellings : List Spelling} {leaves : List Leaf} {w w' : Workshop}
    (h : Written spellings w leaves w') :
    Room.Fit Part.admitsLeaf (spellings.map room) leaves := by
  induction h with
  | nil w => rfl
  | @cons s spellings leaf leaves w v w' h _ ih =>
      refine ⟨[leaf], leaves, rfl, ?_, ?_, ih⟩
      · cases s <;> rfl
      · intro l hl
        obtain rfl := List.mem_singleton.mp hl
        cases s with
        | token _ _ | identifier _ | discard => cases h; rfl

/-- A production whose parts are grammatical makes a grammatical node. -/
theorem Product.Makes.grammatical {product : Product} {groups : List (List Piece)} {n : Node}
    {w w' : Workshop} (h : product.Makes groups w (.node n) w') (hp : product.follows = true)
    (hg : ∀ m, Piece.node m ∈ groups.flatten → m.Grammatical) : n.Grammatical := by
  -- Words and covering nodes hold nothing, and their kinds have no rooms.
  have bare : ∀ {kind : Kind} {range : Range} {v : Workshop}, kind.rooms.isEmpty = true →
      (Build.bareNode kind range).run v = .ok (n, w') → n.Grammatical := by
    intro kind range v hk hn
    obtain ⟨rfl, -⟩ := Build.run_bareNode_eq_ok hn
    rw [List.isEmpty_iff] at hk
    refine Node.grammatical_of_children ⟨?_, ?_⟩ nofun
    · simp [Kind.leafRooms, Node.kind, Node.label, hk, Room.Fit, Node.leaves]
    · simp [Kind.childRooms, Node.kind, Node.label, hk, Room.Fit, Node.children]
  cases h with
  | word h => exact bare hp h
  | covering _ h => exact bare hp h
  | @node kind spellings slots rank _ written attached inner n _ v u _ hw hf h =>
      simp only [Product.follows, Bool.and_eq_true] at hp
      obtain ⟨⟨hs, hleaf⟩, hchild⟩ := hp
      obtain ⟨hl, hat, hin, hgr⟩ := hf.fit hs hg
      obtain ⟨range, -, rfl, -⟩ := Build.run_node_eq_ok h
      exact Node.grammatical_of_children
        ⟨(Room.Fit.append hl hw.fit).of_narrows hleaf, (Room.Fit.append hin hat).of_narrows hchild⟩
        hgr

/-- Every piece is made as the grammar says. -/
theorem grammatical_invariant :
    Invariant fun _ pieces => ∀ n, Piece.node n ∈ pieces → n.Grammatical where
  perm hp h n hn := h n (hp.mem_iff.mpr hn)
  shelf _ h := h
  make hp hm h n hn := by
    rcases List.mem_cons.mp hn with rfl | hn
    · exact hm.grammatical (Production.follows hp) fun m hm => h m (List.mem_append_left _ hm)
    · exact h n (List.mem_append_right _ hn)

/-- What a form yields is grammatical, also when it takes pieces from the shelf. -/
theorem Form.grammatical_of_run {forms : List Form} {form : Form} {n : Node} {w w' : Workshop}
    (built : Workshop.ofForms forms = .ok w) (run : form.eval.run w = .ok (.node n, w')) :
    n.Grammatical :=
  grammatical_invariant.of_run built nofun run n List.mem_cons_self

/-! ### What nodes of a kind hold -/

namespace Room

variable {α : Type} {admits : Part → α → Bool} {part : Part} {rooms : List Room} {xs : List α}

theorem fit_nil : Fit admits [] xs ↔ xs = [] := Iff.rfl

/-- The first part is in the room for one, and the rest fits the other rooms. -/
theorem fit_one : Fit admits (one part :: rooms) xs ↔
    ∃ x rest, xs = x :: rest ∧ admits part x = true ∧ Fit admits rooms rest := by
  constructor
  · rintro ⟨front, back, rfl, ha, hp, hf⟩
    obtain ⟨x, rfl⟩ := List.length_eq_one_iff.mp (beq_iff_eq.mp ha)
    exact ⟨x, back, rfl, hp x List.mem_cons_self, hf⟩
  · rintro ⟨x, rest, rfl, hp, hf⟩
    refine ⟨[x], rest, rfl, rfl, ?_, hf⟩
    intro y hy
    obtain rfl := List.mem_singleton.mp hy
    exact hp

/-- Either the room is passed over or it has room for one. -/
theorem fit_optional : Fit admits (optional part :: rooms) xs ↔
    Fit admits rooms xs ∨ Fit admits (one part :: rooms) xs := by
  constructor
  · rintro ⟨front, back, rfl, ha, hp, hf⟩
    have hlen : front.length ≤ 1 := of_decide_eq_true ha
    match front, hlen with
    | [], _ => exact .inl hf
    | [x], _ => exact .inr ⟨[x], back, rfl, rfl, hp, hf⟩
  · rintro (hf | ⟨front, back, rfl, ha, hp, hf⟩)
    · exact ⟨[], xs, rfl, rfl, nofun, hf⟩
    · exact ⟨front, back, rfl, decide_eq_true (Nat.le_of_eq (beq_iff_eq.mp ha)), hp, hf⟩

/-- A stretch of such parts comes first, and the rest fits the other rooms. -/
theorem fit_many : Fit admits (many part :: rooms) xs ↔
    ∃ front back, xs = front ++ back ∧ (∀ x ∈ front, admits part x = true) ∧
      Fit admits rooms back := by
  constructor
  · rintro ⟨front, back, e, -, hp, hf⟩
    exact ⟨front, back, e, hp, hf⟩
  · rintro ⟨front, back, e, hp, hf⟩
    exact ⟨front, back, e, rfl, hp, hf⟩

/-- One part. -/
theorem fit_singleton : Fit admits [one part] xs ↔ ∃ x, xs = [x] ∧ admits part x = true := by
  simp only [fit_one, fit_nil]
  constructor
  · rintro ⟨x, _, hx, ha, rfl⟩
    exact ⟨x, hx, ha⟩
  · rintro ⟨x, hx, ha⟩
    exact ⟨x, [], hx, ha, rfl⟩

/-- Two parts. -/
theorem fit_pair {part' : Part} : Fit admits [one part, one part'] xs ↔
    ∃ x y, xs = [x, y] ∧ admits part x = true ∧ admits part' y = true := by
  constructor
  · intro h
    obtain ⟨x, rest, rfl, ha, h⟩ := fit_one.mp h
    obtain ⟨y, rfl, hb⟩ := fit_singleton.mp h
    exact ⟨x, y, rfl, ha, hb⟩
  · rintro ⟨x, y, rfl, ha, hb⟩
    exact fit_one.mpr ⟨x, [y], rfl, ha, fit_singleton.mpr ⟨y, rfl, hb⟩⟩

/-- Any number of parts, and nothing else. -/
theorem fit_all : Fit admits [many part] xs ↔ ∀ x ∈ xs, admits part x = true := by
  simp only [fit_many, fit_nil]
  constructor
  · rintro ⟨front, _, rfl, ha, rfl⟩
    simpa using ha
  · exact fun h => ⟨xs, [], (List.append_nil xs).symm, h, rfl⟩

/-- At most one part. -/
theorem fit_atMostOne : Fit admits [optional part] xs ↔
    xs = [] ∨ ∃ x, xs = [x] ∧ admits part x = true := by
  rw [fit_optional, fit_nil, fit_singleton]

/-- Every part is in some room. -/
theorem Fit.exists_room {x : α} : ∀ {rooms : List Room} {xs : List α}, Fit admits rooms xs →
    x ∈ xs → ∃ room ∈ rooms, admits room.part x = true
  | [], _, h, hx => by
      rw [fit_nil.mp h] at hx
      cases hx
  | room :: rooms, _, ⟨front, back, e, _, hp, hf⟩, hx => by
      rcases List.mem_append.mp (e ▸ hx) with hx | hx
      · exact ⟨room, List.mem_cons_self, hp x hx⟩
      · obtain ⟨other, ho, hx⟩ := hf.exists_room hx
        exact ⟨other, List.mem_cons_of_mem _ ho, hx⟩

end Room

/-- Nodes of a kind may have children of another. -/
def Kind.mayHold (parent child : Kind) : Bool :=
  parent.childRooms.any (·.part.admitsKind child)

/-- The kind of a child is one that the kind of the node has room for. -/
theorem Node.Shaped.mayHold {n child : Node} (h : n.Shaped) (hc : child ∈ n.children) :
    n.kind.mayHold child.kind = true := by
  obtain ⟨room, hr, ha⟩ := h.children.exists_room hc
  exact List.any_eq_true.mpr ⟨room, hr, ha⟩

/-- What holds of every kind of the list of kinds holds of every kind. -/
theorem Kind.forall_of_all {P : Kind → Bool} (h : all.all P = true) (kind : Kind) :
    P kind = true :=
  List.all_eq_true.mp h kind (mem_all kind)

/-- Only the body of a query has joins. -/
theorem Kind.eq_queryBody_of_mayHold {kind : Kind} (h : kind.mayHold .joinClause = true) :
    kind = .queryBody := by
  have := forall_of_all (P := fun kind => !kind.mayHold .joinClause || kind == .queryBody)
    (by decide) kind
  simpa [h] using this

namespace Node.Shaped

variable {n : Node} (h : n.Shaped)
include h

/-- The children fit the rooms of the kind that the node is of. -/
theorem fit {kind : Kind} (hk : n.kind = kind) :
    Room.Fit Part.admitsNode kind.childRooms n.children :=
  hk ▸ h.children

theorem argument (hk : n.kind = .argument) : ∃ e, n.children = [e] := by
  obtain ⟨e, hn, -⟩ := Room.fit_singleton.mp (h.fit hk)
  exact ⟨e, hn⟩

/-- A call to another constructor holds its arguments and nothing else. -/
theorem constructorInitializer (hk : n.kind.isConstructorInitializer = true) :
    ∃ list, n.children = [list] ∧ list.kind = .argumentList := by
  have hc : Room.Fit Part.admitsNode [.one (.node .argumentList)] n.children := by
    rcases Kind.isConstructorInitializer_iff.mp hk with hk | hk <;> exact h.fit hk
  obtain ⟨list, hn, hl⟩ := Room.fit_singleton.mp hc
  exact ⟨list, hn, beq_iff_eq.mp hl⟩

theorem kind_of_mem_argumentList {argument : Node} (hk : n.kind = .argumentList)
    (hc : argument ∈ n.children) : argument.kind = .argument :=
  beq_iff_eq.mp (Room.fit_all.mp (h.fit hk) argument hc)

/-- The list in a call is in parentheses: the square brackets belong to an element access. -/
theorem argumentList {list : Node} (hk : n.kind.isCall = true)
    (hl : list.kind.isArgumentList = true) (hc : list ∈ n.children) :
    list.kind = .argumentList := by
  rcases Kind.isArgumentList_iff.mp hl with hl | hl
  · exact hl
  · have hm := h.mayHold hc
    rw [hl] at hm
    rcases Kind.isCall_iff.mp hk with hk | hk | hk | hk <;> rw [hk] at hm <;> cases hm

/-- A binary operator has two operands. -/
theorem binaryExpression (hk : n.kind = .binaryExpression) :
    ∃ left right, n.children = [left, right] ∧ left.kind.isExpression = true ∧
      right.kind.isExpression = true :=
  Room.fit_pair.mp (h.fit hk)

/-- The body of the loop comes before its condition. -/
theorem doStatement (hk : n.kind = .doStatement) :
    ∃ body condition, n.children = [body, condition] := by
  obtain ⟨body, condition, hn, -, -⟩ := Room.fit_pair.mp (h.fit hk)
  exact ⟨body, condition, hn⟩

/-- A join holds its source and two keys, after its type if it has one. -/
theorem joinClause (hk : n.kind = .joinClause) :
    ∃ types source left right, n.children = types ++ [source, left, right] ∧ types.length ≤ 1 ∧
      source.kind.isExpression = true := by
  obtain ⟨types, back, hn, ht, -, hf⟩ := h.fit hk
  obtain ⟨source, rest, rfl, he, hf⟩ := Room.fit_one.mp hf
  obtain ⟨left, right, rfl, -, -⟩ := Room.fit_pair.mp hf
  exact ⟨types, source, left, right, hn, of_decide_eq_true ht, he⟩

/-- The value that is examined comes before the arms. -/
theorem switchExpression (hk : n.kind = .switchExpression) :
    ∃ e arms, n.children = e :: arms ∧ e.kind.isExpression = true ∧
      ∀ arm ∈ arms, arm.kind = .switchExpressionArm := by
  obtain ⟨e, arms, hn, he, hf⟩ := Room.fit_one.mp (h.fit hk)
  exact ⟨e, arms, hn, he, fun arm hm => beq_iff_eq.mp (Room.fit_all.mp hf arm hm)⟩

theorem localDeclarationStatement (hk : n.kind = .localDeclarationStatement) :
    ∃ declaration, n.children = [declaration] ∧ declaration.kind = .variableDeclaration := by
  obtain ⟨declaration, hn, hd⟩ := Room.fit_singleton.mp (h.fit hk)
  exact ⟨declaration, hn, beq_iff_eq.mp hd⟩

/-- A declaration holds its type, and then its variables. -/
theorem variableDeclaration (hk : n.kind = .variableDeclaration) :
    ∃ type declarators, n.children = type :: declarators ∧ type.kind.isType = true ∧
      ∀ d ∈ declarators, d.kind = .variableDeclarator := by
  obtain ⟨type, declarators, hn, ht, hf⟩ := Room.fit_one.mp (h.fit hk)
  exact ⟨type, declarators, hn, ht, fun d hd => beq_iff_eq.mp (Room.fit_all.mp hf d hd)⟩

/-- A label holds a pattern, and at most one clause with a condition. -/
theorem casePatternSwitchLabel (hk : n.kind = .casePatternSwitchLabel) :
    ∃ pattern clauses, n.children = pattern :: clauses ∧
      (clauses = [] ∨ ∃ clause, clauses = [clause] ∧ clause.kind = .whenClause) := by
  obtain ⟨pattern, clauses, hn, -, hf⟩ := Room.fit_one.mp (h.fit hk)
  refine ⟨pattern, clauses, hn, (Room.fit_atMostOne.mp hf).imp_right ?_⟩
  exact fun ⟨clause, hc, hw⟩ => ⟨clause, hc, beq_iff_eq.mp hw⟩

/-- A source holds the expression that it draws on, after its type if it has one. -/
theorem fromClause (hk : n.kind = .fromClause) :
    ∃ types e, n.children = types ++ [e] ∧ ∀ type ∈ types, type.kind.isType = true := by
  obtain ⟨types, rest, hn, -, ht, hf⟩ := h.fit hk
  obtain ⟨e, rfl, -⟩ := Room.fit_singleton.mp hf
  exact ⟨types, e, hn, ht⟩

/-- A query holds its source and its body. -/
theorem queryExpression (hk : n.kind = .queryExpression) :
    ∃ source body, n.children = [source, body] ∧ source.kind = .fromClause ∧
      body.kind = .queryBody := by
  obtain ⟨source, body, hn, hs, hb⟩ := Room.fit_pair.mp (h.fit hk)
  exact ⟨source, body, hn, beq_iff_eq.mp hs, beq_iff_eq.mp hb⟩

theorem queryContinuation (hk : n.kind = .queryContinuation) :
    ∃ body, n.children = [body] ∧ body.kind = .queryBody := by
  obtain ⟨body, hn, hb⟩ := Room.fit_singleton.mp (h.fit hk)
  exact ⟨body, hn, beq_iff_eq.mp hb⟩

/-- If a query goes on after its body, the continuation is the last child of the body. -/
theorem queryBody (hk : n.kind = .queryBody) :
    ∃ clauses rest, n.children = clauses ++ rest ∧
      (∀ c ∈ clauses, c.kind ≠ .queryContinuation) ∧
      (rest = [] ∨ ∃ continuation, rest = [continuation] ∧
        continuation.kind = .queryContinuation) := by
  obtain ⟨clauses, rest, hn, hcl, hf⟩ := Room.fit_many.mp (h.fit hk)
  obtain ⟨selection, rest, rfl, hs, hf⟩ := Room.fit_one.mp hf
  refine ⟨clauses ++ [selection], rest, by simp [hn], ?_, (Room.fit_atMostOne.mp hf).imp_right ?_⟩
  · -- Neither category has room for a continuation.
    intro c hc e
    rcases List.mem_append.mp hc with hc | hc
    · have hadmits := hcl c hc
      rw [Part.admitsNode, e] at hadmits
      cases hadmits
    · obtain rfl := List.mem_singleton.mp hc
      rw [Part.admitsNode, e] at hs
      cases hs
  · exact fun ⟨continuation, hr, hk⟩ => ⟨continuation, hr, beq_iff_eq.mp hk⟩

theorem varPattern (hk : n.kind = .varPattern) : n.children = [] :=
  Room.fit_nil.mp (h.fit hk)

/-- A declarator holds the name of its variable, and at most an initial value. -/
theorem variableDeclarator (hk : n.kind = .variableDeclarator) :
    (∃ i, n.leaves = [.identifier i]) ∧
      (n.children = [] ∨ ∃ value, n.children = [value] ∧ value.kind.isExpression = true) := by
  refine ⟨?_, Room.fit_atMostOne.mp (h.fit hk)⟩
  have hl := h.leaves
  rw [hk] at hl
  obtain ⟨leaf, hn, hi⟩ := Room.fit_singleton.mp hl
  cases leaf with
  | identifier i => exact ⟨i, hn⟩
  | token _ | discard _ _ => cases hi

/-- The one child of a declaration is its type. -/
theorem declaredType (hk : n.kind = .declarationExpression ∨ n.kind = .declarationPattern) :
    ∃ type, n.children = [type] ∧ type.kind.isType = true ∧ n.type? = some type := by
  have hc : Room.Fit Part.admitsNode [.one (.of .type)] n.children := by
    rcases hk with hk | hk <;> exact h.fit hk
  obtain ⟨type, hn, ht⟩ := Room.fit_singleton.mp hc
  have ht : type.kind.isType = true := ht
  exact ⟨type, hn, ht, by simp [Node.type?, hn, ht]⟩

end Node.Shaped

/-- Below a type there are only types. -/
theorem Node.Grammatical.isType {n : Node} (h : n.Grammatical) (ht : n.kind.isType = true) :
    ∀ {m : Node}, m.Within n → m.kind.isType = true := by
  induction n using Node.induction with
  | step n ih =>
      intro m hm
      rcases within_iff.mp hm with rfl | ⟨child, hc, hm⟩
      · exact ht
      · have hall := Kind.forall_of_all
          (P := fun kind => !kind.isType || kind.childRooms.all (·.part == .of .type))
          (by decide) n.kind
        rw [ht, Bool.not_true, Bool.false_or, List.all_eq_true] at hall
        obtain ⟨room, hr, ha⟩ := h.shaped.children.exists_room hc
        rw [beq_iff_eq.mp (hall room hr)] at ha
        exact ih child hc (h.child hc) ha hm

end InlineLocals
