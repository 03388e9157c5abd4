import Mathlib
import InlineLocals.Proofs.Syntax.Numbering
import InlineLocals.Proofs.Syntax.Script

/-!
# Syntax — Ledger

What a workshop has created, one thing after the other.  A creation takes an id; a leaf takes text
as well, and a node takes none.  A production creates the leaves that it writes, with their texts
(`Production.texts`), then its hidden nodes and then its own (`Production.creations`).  A
workshop that has come about production by production thereby keeps a ledger
(`Workshop.Recorded`), in which a token that was written and dropped stands as well.

The two counters of a workshop are read off its ledger (`Workshop.Counts`): the entries tell ids,
and the texts of the leaves tell positions.  All leaves and nodes there are stand in it
(`Piece.Entered`), wherever they have been moved, so the layout of all leaves that were ever
created is a fact of lists (`Workshop.leaves_apart`).
-/

namespace InlineLocals

/-! ### Texts of leaves -/

/-- The width of a leaf: the length of its text in bytes, and one where the text is not fixed. -/
def textWidth (text? : Option String) : Nat := (text?.map String.utf8ByteSize).getD 1

/-- The kinds of nodes that are themselves a stretch of text. -/
def Kind.isWord : Kind → Bool
  | .discardPattern | .defaultSwitchLabel | .breakStatement | .continueStatement
  | .emptyStatement => true
  | _ => false

/-- The leaves that a production writes, by their kinds and texts. -/
def Production.texts : Production → List (Kind × Option String)
  | token kind | predefinedType kind | binary kind | prefixUnary kind | refKindArgument kind =>
    [(kind, kind.text?)]
  | identifier text | identifierName text | genericName text | memberAccess text | parameter text
  | fromClause text | letClause text | queryContinuation text | declarator text
  | forEachStatement text | subpattern (some text) => [(.identifierToken, some text)]
  | joinClause text into _ =>
    (.identifierToken, some text) :: (into.map fun text => (.identifierToken, some text)).toList
  | numericLiteral text => [(.numericLiteralToken, some text)]
  | stringLiteral text => [(.stringLiteralToken, some ("\"" ++ text ++ "\""))]
  | boolLiteral true => [(.trueKeyword, some "true")]
  | boolLiteral false => [(.falseKeyword, some "false")]
  | nullLiteral => [(.nullKeyword, some "null")]
  | thisExpression => [(.thisKeyword, some "this")]
  | assignment => [(.equalsToken, some "=")]
  | discardDesignation => [(.discardDesignation, some "_")]
  | discardPattern => [(.discardPattern, some "_")]
  | defaultLabel => [(.defaultSwitchLabel, some "default")]
  | breakStatement => [(.breakStatement, some "break")]
  | continueStatement => [(.continueStatement, some "continue")]
  | emptyStatement => [(.emptyStatement, some ";")]
  | _ => []

/-- The kind of the leaf that is written. -/
def Spelling.kind : Spelling → Kind
  | token kind _ => kind
  | identifier _ => .identifierToken
  | discard => .discardDesignation

/-- A leaf of the kind is written, as wide as its text. -/
def Spelling.Reads (s : Spelling) (leaf : Kind × Option String) : Prop :=
  s.kind = leaf.1 ∧ s.width = textWidth leaf.2

/-- A production writes its texts. -/
theorem Production.reads_texts (p : Production) :
    List.Forall₂ Spelling.Reads p.product.script p.texts := by
  have one {s : Spelling} {leaf : Kind × Option String} (h : s.Reads leaf) :
      List.Forall₂ Spelling.Reads [s] [leaf] := .cons h .nil
  cases p with
  | boolLiteral value => cases value <;> exact one ⟨rfl, by decide⟩
  | subpattern name =>
      cases name with
      | none => exact .nil
      | some text => exact one ⟨rfl, rfl⟩
  | joinClause text into typed =>
      cases into with
      | none => exact one ⟨rfl, rfl⟩
      | some other => exact .cons ⟨rfl, rfl⟩ (one ⟨rfl, rfl⟩)
  | stringLiteral text =>
      refine one ⟨rfl, ?_⟩
      simp only [Spelling.width, textWidth, Option.map_some, Option.getD_some,
        String.utf8ByteSize_append]
      have hquote : "\"".utf8ByteSize = 1 := by decide
      omega
  | token | predefinedType | binary | prefixUnary | refKindArgument | identifier | identifierName
  | genericName | memberAccess | parameter | fromClause | letClause | queryContinuation
  | declarator | forEachStatement | numericLiteral => exact one ⟨rfl, rfl⟩
  | nullLiteral | thisExpression | assignment | discardDesignation | discardPattern | defaultLabel
  | breakStatement | continueStatement | emptyStatement => exact one ⟨rfl, by decide⟩
  | _ => exact .nil

/-- A leaf of a kind with a fixed text has that text. -/
theorem Production.text?_eq_of_mem_texts (p : Production) {leaf : Kind × Option String}
    (h : leaf ∈ p.texts) {text : String} (ht : leaf.1.text? = some text) :
    leaf.2 = some text := by
  have hall : ∀ leaf ∈ p.texts, leaf.1.text? = none ∨ leaf.2 = leaf.1.text? := by
    cases p with
    | boolLiteral value => cases value <;> simp [texts, Kind.text?]
    | subpattern name => cases name <;> simp [texts, Kind.text?]
    | joinClause text into typed => cases into <;> simp [texts, Kind.text?]
    | _ => simp [texts, Kind.text?]
  rcases hall leaf h with hnone | hsome
  · rw [hnone] at ht
    cases ht
  · rw [hsome, ht]

/-! ### Creations -/

/-- What takes an id. -/
inductive Creation where
  /-- A leaf with its text; it is absent where the text is not fixed. -/
  | leaf (kind : Kind) (text? : Option String)
  | node (kind : Kind)
deriving DecidableEq

/-- The kind of the node that is made for the parts of a slot, if they are hidden in one. -/
def Slot.nodeKinds (s : Slot) (group : List Piece) : List Kind :=
  match s.hidden with
  | none => []
  | some kind => if s.arity = .optional && group.isEmpty then [] else [kind]

/-- The kinds of the nodes that are made over leaves and parts, the hidden ones first. -/
def Product.nodeKinds : Product → List (List Piece) → List Kind
  | leaf _, _ | word _ _, _ => []
  | covering kind _, _ => [kind]
  | node kind _ slots _, groups => (List.zipWith Slot.nodeKinds slots groups).flatten ++ [kind]

/-- What a production creates out of the groups of parts for its slots, in order. -/
def Production.creations (p : Production) (groups : List (List Piece)) : List Creation :=
  p.texts.map (fun leaf => .leaf leaf.1 leaf.2) ++ (p.product.nodeKinds groups).map .node

theorem Production.mem_texts_of_leaf_mem_creations {p : Production} {groups : List (List Piece)}
    {kind : Kind} {text? : Option String} (h : .leaf kind text? ∈ p.creations groups) :
    (kind, text?) ∈ p.texts := by
  rcases List.mem_append.mp h with h | h
  · obtain ⟨leaf, hl, e⟩ := List.mem_map.mp h
    cases e
    exact hl
  · obtain ⟨kind, -, e⟩ := List.mem_map.mp h
    cases e

/-- The workshop has come about by building these productions one after the other, and they have
created what the log lists.  The shelf may be changed in between. -/
inductive Workshop.Recorded : List Production → List Creation → Workshop → Prop where
  | start : Recorded [] [] {}
  | build {past : List Production} {log : List Creation} {w w' : Workshop} {p : Production}
      {groups : List (List Piece)} {piece : Piece} (h : Recorded past log w)
      (run : (p.build groups).run w = .ok (piece, w')) :
      Recorded (past ++ [p]) (log ++ p.creations groups) w'
  | shelf {past : List Production} {log : List Creation} {w : Workshop} (h : Recorded past log w)
      (shelf : Array (Option Piece)) : Recorded past log { w with shelf }

/-! ### Places in a ledger -/

namespace Creation

/-- The positions that are taken: after each leaf one is left free. -/
def extent : Creation → Nat
  | leaf _ text? => textWidth text? + 1
  | node _ => 0

/-- The position that a log reaches. -/
def reach (log : List Creation) : Nat := (log.map extent).sum

theorem reach_append (log more : List Creation) : reach (log ++ more) = reach log + reach more := by
  simp [reach]

/-- The leaf is entered in the log with its text.  Its id is the number of entries before it, and
it begins where they reach. -/
def LeafAt (log : List Creation) (leaf : Info) (text? : Option String) : Prop :=
  ∃ before after, log = before ++ .leaf leaf.kind text? :: after ∧ leaf.id = before.length ∧
    leaf.range = ⟨reach before, reach before + textWidth text?⟩

theorem LeafAt.append {log : List Creation} {leaf : Info} {text? : Option String}
    (h : LeafAt log leaf text?) (more : List Creation) : LeafAt (log ++ more) leaf text? := by
  obtain ⟨before, after, rfl, hplace⟩ := h
  exact ⟨before, after ++ more, by simp, hplace⟩

/-- Between two leaves lies all the text of the first. -/
theorem LeafAt.stop_lt {log : List Creation} {leaf other : Info} {text? other? : Option String}
    (h : LeafAt log leaf text?) (h' : LeafAt log other other?) (hlt : leaf.id < other.id) :
    leaf.range.stop < other.range.pos := by
  obtain ⟨before, after, rfl, hid, hrange⟩ := h
  obtain ⟨before', after', hlog, hid', hrange'⟩ := h'
  rw [hid, hid'] at hlt
  rw [hrange, hrange']
  rcases List.append_eq_append_iff.mp hlog with ⟨gap, rfl, hgap⟩ | ⟨gap, rfl, -⟩
  · cases gap with
    | nil => simp at hlt
    | cons entry gap =>
        obtain ⟨rfl, -⟩ := List.cons.inj hgap
        show reach before + textWidth text? < reach (before ++ .leaf leaf.kind text? :: gap)
        rw [reach_append]
        simp only [reach, List.map_cons, List.sum_cons, extent]
        omega
  · rw [List.length_append] at hlt
    exact absurd hlt (Nat.not_lt.mpr (Nat.le_add_right _ _))

/-- A node of the log; one that is itself a stretch of text is entered as a leaf. -/
def NodeAt (log : List Creation) (n : Node) : Prop :=
  if n.kind.isWord then ∃ text?, LeafAt log n.info text? else log[n.id]? = some (.node n.kind)

theorem NodeAt.append {log : List Creation} {n : Node} (h : NodeAt log n) (more : List Creation) :
    NodeAt (log ++ more) n := by
  unfold NodeAt at h ⊢
  split
  · next hw =>
    rw [if_pos hw] at h
    exact h.imp fun _ ht => ht.append more
  · next hw =>
    rw [if_neg hw] at h
    rw [List.getElem?_append_left (List.getElem?_eq_some_iff.mp h).1]
    exact h

end Creation

open Creation (LeafAt NodeAt reach reach_append)

/-- The counters stand where the log leaves them. -/
structure Workshop.Counts (w : Workshop) (log : List Creation) : Prop where
  nextId : w.nextId = log.length
  nextPos : w.nextPos = reach log

/-- The leaf, or all nodes of the tree and the leaves that they hold, are entered in the log. -/
def Piece.Entered (log : List Creation) : Piece → Prop
  | leaf l => ∃ text?, LeafAt log l.info text?
  | node n => ∀ m : Node, m.Within n →
      NodeAt log m ∧ ∀ l ∈ m.leaves, ∃ text?, LeafAt log l.info text?

/-- A node stands in the log with its leaves and with the trees of its children. -/
theorem Piece.entered_node {log : List Creation} {n : Node} (hn : NodeAt log n)
    (hl : ∀ l ∈ n.leaves, (leaf l).Entered log) (hc : ∀ c ∈ n.children, (node c).Entered log) :
    (node n).Entered log := by
  intro m hm
  rcases Node.within_iff.mp hm with rfl | ⟨child, hchild, hm⟩
  · exact ⟨hn, hl⟩
  · exact hc child hchild m hm

theorem Piece.Entered.append {log : List Creation} {p : Piece} (h : p.Entered log)
    (more : List Creation) : p.Entered (log ++ more) := by
  cases p with
  | leaf l => exact h.imp fun _ ht => ht.append more
  | node n =>
      exact fun m hm => ⟨(h m hm).1.append more, fun l hl =>
        ((h m hm).2 l hl).imp fun _ ht => ht.append more⟩

theorem Piece.Entered.leaf {log : List Creation} {p : Piece} (h : p.Entered log) {l : Leaf}
    (hl : l ∈ p.leaves) : ∃ text?, LeafAt log l.info text? := by
  cases p with
  | leaf k =>
      obtain rfl := List.mem_singleton.mp hl
      exact h
  | node n =>
      obtain ⟨m, hm, hl⟩ := List.mem_flatMap.mp hl
      exact (h m (Node.mem_nodes.mp hm)).2 l hl

/-! ### Building keeps the ledger -/

section

variable {log : List Creation} {w w' : Workshop}

theorem Spelling.entered_of_run {s : Spelling} {leaf : Leaf} {text : Kind × Option String}
    (h : s.write.run w = .ok (leaf, w')) (hs : s.Reads text) (hw : w.Counts log) :
    w'.Counts (log ++ [.leaf text.1 text.2]) ∧
      LeafAt (log ++ [.leaf text.1 text.2]) leaf.info text.2 := by
  obtain ⟨hid, hrange, hnext, hpos, -⟩ := run_write_eq_ok h
  have hkind : leaf.info.kind = s.kind := by cases s <;> cases h <;> rfl
  refine ⟨⟨?_, ?_⟩, log, [], ?_, ?_, ?_⟩
  · rw [hnext, hw.nextId, List.length_append, List.length_singleton]
  · rw [hpos, hw.nextPos, hs.2, reach_append]
    simp [reach, Creation.extent, Nat.add_assoc]
  · rw [hkind, hs.1]
  · rw [hid, hw.nextId]
  · rw [← hs.2, ← hw.nextPos]
    exact hrange

theorem Spelling.Written.entered {spellings : List Spelling} {written : List Leaf}
    (h : Written spellings w written w') : ∀ {texts : List (Kind × Option String)}
      {log : List Creation}, List.Forall₂ Reads spellings texts → w.Counts log →
        w'.Counts (log ++ texts.map fun leaf => .leaf leaf.1 leaf.2) ∧
          ∀ l ∈ written,
            (Piece.leaf l).Entered (log ++ texts.map fun leaf => .leaf leaf.1 leaf.2) := by
  induction h with
  | nil w =>
      intro texts log hs hw
      cases hs
      exact ⟨by simpa using hw, nofun⟩
  | cons hrun _ ih =>
      intro texts log hs hw
      cases hs with
      | @cons _ text _ texts htext htexts =>
          obtain ⟨hcounts, hleaf⟩ := entered_of_run hrun htext hw
          obtain ⟨hcounts', hleaves⟩ := ih htexts hcounts
          rw [List.map_cons, List.append_cons]
          exact ⟨hcounts', List.forall_mem_cons.mpr ⟨⟨text.2, hleaf.append _⟩, hleaves⟩⟩

/-- A new node takes the next id and no text.  So it is when more parts are attached to it. -/
theorem Build.entered_of_run_node {kind : Kind} {leaves : List Leaf} {children : List Node}
    {rank : Nat} {n : Node} (h : (node kind leaves children rank).run w = .ok (n, w'))
    (hk : kind.isWord = false) (hw : w.Counts log)
    (hl : ∀ l ∈ leaves, (Piece.leaf l).Entered log) (first : List Node)
    (hc : ∀ c ∈ first ++ children, (Piece.node c).Entered log) :
    w'.Counts (log ++ [.node kind]) ∧
      (Piece.node (n.withFirst first)).Entered (log ++ [.node kind]) := by
  obtain ⟨range, -, rfl, rfl⟩ := run_node_eq_ok h
  refine ⟨⟨?_, ?_⟩, Piece.entered_node ?_ (fun l hm => (hl l hm).append _) fun c hm =>
    (hc c hm).append _⟩
  · rw [List.length_append, List.length_singleton, ← hw.nextId]
  · rw [reach_append, ← hw.nextPos]
    simp [reach, Creation.extent]
  · simp only [NodeAt, Node.withFirst, Node.kind, Node.label, Node.id, hk, hw.nextId]
    simp

/-- A node that stands alone takes the next id, and the range that it is given. -/
theorem Build.counts_of_run_bareNode {kind : Kind} {range : Range} {n : Node}
    (h : (bareNode kind range).run w = .ok (n, w')) (hw : w.Counts log) :
    w'.Counts (log ++ [.node kind]) := by
  obtain ⟨-, rfl⟩ := run_bareNode_eq_ok h
  refine ⟨?_, ?_⟩
  · rw [List.length_append, List.length_singleton, ← hw.nextId]
  · rw [reach_append, ← hw.nextPos]
    simp [reach, Creation.extent]

/-- No node over leaves and parts is itself a stretch of text. -/
def Product.plainNodes : Product → Bool
  | leaf _ => true
  | word kind _ => kind.isWord
  | covering kind _ => !kind.isWord
  | node kind _ slots _ =>
    !kind.isWord && slots.all fun s => s.hidden.all fun kind => !kind.isWord

theorem Production.plainNodes {p : Production} (h : p.Allowed) : p.product.plainNodes = true := by
  cases p with
  | boolLiteral value => cases value <;> rfl
  | subpattern name => cases name <;> rfl
  | objectCreation called filled => cases called <;> cases filled <;> rfl
  | joinClause name into typed => cases typed <;> rfl
  | constructorInitializer kind =>
      rcases Kind.isConstructorInitializer_iff.mp (h kind rfl) with rfl | rfl <;> rfl
  | _ => rfl

theorem Slot.Fills.entered {s : Slot} {group parts : List Piece} (h : s.Fills group w parts w')
    (hs : (s.hidden.all fun kind => !kind.isWord) = true) (hw : w.Counts log)
    (hg : ∀ p ∈ group, p.Entered log) :
    w'.Counts (log ++ (s.nodeKinds group).map .node) ∧
      ∀ p ∈ parts, p.Entered (log ++ (s.nodeKinds group).map .node) := by
  cases h with
  | «open» hnone =>
      simp only [nodeKinds, hnone, List.map_nil, List.append_nil]
      exact ⟨hw, hg⟩
  -- An optional slot without a part hides no node, and the log stays as it is.
  | absent hsome ha =>
      simp only [nodeKinds, hsome, ha, decide_true, List.isEmpty_nil, Bool.and_self, if_true,
        List.map_nil, List.append_nil]
      exact ⟨hw, nofun⟩
  | @hidden kind hsome _ n _ _ ha h =>
      have hk : kind.isWord = false := by simpa [hsome] using hs
      have hmade : ¬ (decide (s.arity = .optional) && group.isEmpty) = true := by
        simpa using ha
      simp only [nodeKinds, hsome, hmade, Bool.false_eq_true, if_false]
      obtain ⟨hcounts, hn⟩ := Build.entered_of_run_node h hk hw nofun []
        fun c hc => hg _ (Piece.mem_filterMap_node?.mp hc)
      refine ⟨hcounts, fun p hp => ?_⟩
      obtain rfl := List.mem_singleton.mp hp
      cases n
      exact hn

theorem Slot.FillsAll.entered {slots : List Slot} {groups : List (List Piece)}
    {attached inner : List Piece} (h : FillsAll slots groups w attached inner w') :
    ∀ {log : List Creation},
      (slots.all fun s => s.hidden.all fun kind => !kind.isWord) = true → w.Counts log →
      (∀ p ∈ groups.flatten, p.Entered log) →
        w'.Counts (log ++ (List.zipWith nodeKinds slots groups).flatten.map .node) ∧
          ∀ p ∈ attached ++ inner,
            p.Entered (log ++ (List.zipWith nodeKinds slots groups).flatten.map .node) := by
  induction h with
  | nil w =>
      intro log _ hw _
      exact ⟨by simpa using hw, nofun⟩
  | @attached s slots group groups parts _ _ _ _ _ _ _ h _ ih
  | @inner s slots group groups parts _ _ _ _ _ _ _ h _ ih =>
      intro log hs hw hg
      rw [List.all_cons, Bool.and_eq_true] at hs
      rw [List.flatten_cons, List.forall_mem_append] at hg
      obtain ⟨hcounts, hparts⟩ := h.entered hs.1 hw hg.1
      obtain ⟨hcounts', hrest⟩ := ih hs.2 hcounts fun p hp => (hg.2 p hp).append _
      rw [List.zipWith_cons_cons, List.flatten_cons, List.map_append, ← List.append_assoc]
      refine ⟨hcounts', fun p hp => ?_⟩
      -- What an earlier slot contributes keeps its entry as the log grows.
      by_cases hpart : p ∈ parts
      · exact (hparts p hpart).append _
      · refine hrest p ?_
        simp only [List.mem_append, hpart, false_or] at hp ⊢
        exact hp

/-- What is made of pieces that are entered is entered with what is created for it. -/
theorem Product.Makes.entered {product : Product} {groups : List (List Piece)} {piece : Piece}
    (h : product.Makes groups w piece w') (hplain : product.plainNodes = true)
    {texts : List (Kind × Option String)} (hs : List.Forall₂ Spelling.Reads product.script texts)
    (hw : w.Counts log) (hg : ∀ p ∈ groups.flatten, p.Entered log) :
    w'.Counts (log ++ (texts.map (fun leaf => .leaf leaf.1 leaf.2) ++
        (product.nodeKinds groups).map .node)) ∧
      piece.Entered (log ++ (texts.map (fun leaf => .leaf leaf.1 leaf.2) ++
        (product.nodeKinds groups).map .node)) := by
  rw [← List.append_assoc]
  cases h with
  | leaf h =>
      cases hs with
      | @cons _ text _ _ htext hnil =>
          cases hnil
          obtain ⟨hcounts, hleaf⟩ := Spelling.entered_of_run h htext hw
          simp only [List.map_singleton, nodeKinds, List.map_nil, List.append_nil]
          exact ⟨hcounts, text.2, hleaf⟩
  | @word kind width n _ _ h =>
      cases hs with
      | @cons _ text _ _ htext hnil =>
          cases hnil
          obtain ⟨hkind, hwidth⟩ := htext
          obtain ⟨rfl, rfl⟩ := Build.run_bareNode_eq_ok h
          simp only [List.map_singleton, nodeKinds, List.map_nil, List.append_nil]
          refine ⟨⟨?_, ?_⟩, Piece.entered_node ?_ (List.forall_mem_nil _) (List.forall_mem_nil _)⟩
          · simp [hw.nextId]
          · rw [reach_append, ← hw.nextPos, reach, List.map_singleton, List.sum_singleton,
              Creation.extent, ← hwidth]
            exact Nat.add_assoc _ _ _
          · have hk : kind.isWord = true := hplain
            simp only [NodeAt, Node.kind, Node.label, hk, if_true]
            refine ⟨text.2, log, [], ?_, hw.nextId, ?_⟩
            · rw [← hkind]
              rfl
            · rw [← hwidth, ← hw.nextPos]
              rfl
  -- The token is in the log, though no node holds it: it has taken its id and its width.
  | @covering kind token dropped n _ v _ hd h =>
      cases hs with
      | @cons _ text _ _ htext hnil =>
          cases hnil
          obtain ⟨hcounts, -⟩ := Spelling.entered_of_run hd htext hw
          have hcounts' := Build.counts_of_run_bareNode h hcounts
          obtain ⟨rfl, -⟩ := Build.run_bareNode_eq_ok h
          refine ⟨hcounts', Piece.entered_node ?_ (List.forall_mem_nil _) (List.forall_mem_nil _)⟩
          have hk : kind.isWord = false := by simpa [plainNodes] using hplain
          simp only [NodeAt, Node.kind, Node.label, Node.id, hk, hcounts.nextId, nodeKinds]
          simp
  | @node kind spellings slots rank _ written attached inner n _ v u _ hwritten hf h =>
      simp only [plainNodes, Bool.and_eq_true, Bool.not_eq_true'] at hplain
      obtain ⟨hcounts, hleaves⟩ := hwritten.entered hs hw
      obtain ⟨hcounts', hparts⟩ := hf.entered hplain.2 hcounts fun p hp => (hg p hp).append _
      -- First the leaves, then what the slots hide, and the node itself last.
      rw [nodeKinds, List.map_append, ← List.append_assoc]
      refine Build.entered_of_run_node h hplain.1 hcounts' ?_ _ ?_
      · refine List.forall_mem_append.mpr ⟨fun l hl => (hleaves l hl).append _, fun l hl => ?_⟩
        exact hparts (.leaf l) (List.mem_append_right _ (Piece.mem_filterMap_leaf?.mp hl))
      · rw [← List.filterMap_append]
        exact fun c hc => hparts _ (Piece.mem_filterMap_node?.mp hc)

end

/-- A workshop keeps a ledger of the productions applied so far, and what there is stands in it. -/
theorem recorded_chronicle : Chronicle (fun _ => True)
    (fun past w pieces => ∃ log, w.Recorded past log ∧ w.Counts log ∧ ∀ p ∈ pieces, p.Entered log)
    (fun _ => True) where
  perm hp h := by
    obtain ⟨log, hrecorded, hcounts, hpieces⟩ := h
    exact ⟨log, hrecorded, hcounts, fun p hm => hpieces p (hp.mem_iff.mpr hm)⟩
  shelf shelf h := by
    obtain ⟨log, hrecorded, hcounts, hpieces⟩ := h
    exact ⟨log, hrecorded.shelf shelf, ⟨hcounts.nextId, hcounts.nextPos⟩, hpieces⟩
  make {p groups past rest w} _ h := Build.ends_iff.mpr ⟨fun piece w' hr => by
    obtain ⟨log, hrecorded, hcounts, hpieces⟩ := h
    rw [List.forall_mem_append] at hpieces
    obtain ⟨ha, hm⟩ := Production.makes_of_run hr
    obtain ⟨hcounts', hpiece⟩ :=
      hm.entered (Production.plainNodes ha) p.reads_texts hcounts hpieces.1
    exact ⟨_, hrecorded.build hr, hcounts', List.forall_mem_cons.mpr
      ⟨hpiece, fun q hq => (hpieces.2 q hq).append _⟩⟩, fun _ _ => trivial⟩
  wrapped _ _ _ := trivial
  joined _ := trivial
  absent _ := trivial
  emptyChain := trivial

namespace Workshop

theorem Recorded.text?_eq {past : List Production} {log : List Creation} {w : Workshop}
    (h : w.Recorded past log) {kind : Kind} {text? : Option String}
    (hl : .leaf kind text? ∈ log) {text : String} (ht : kind.text? = some text) :
    text? = some text := by
  induction h with
  | start => cases hl
  | shelf _ _ ih => exact ih hl
  | @build _ _ _ _ p groups _ _ _ ih =>
      rcases List.mem_append.mp hl with hl | hl
      · exact ih hl
      · exact p.text?_eq_of_mem_texts (Production.mem_texts_of_leaf_mem_creations hl) ht

/-- The ledger of a workshop, and how the leaves in it are laid out. -/
structure Ledger (w : Workshop) (past : List Production) (log : List Creation) : Prop where
  recorded : w.Recorded past log
  /-- There is an entry for each id that was handed out, those of dropped tokens included. -/
  complete : w.nextId = log.length
  leaf : ∀ l ∈ w.pieces.flatMap Piece.leaves, ∃ text?, LeafAt log l.info text?
  node : ∀ n, w.Holds n → NodeAt log n
  /-- The leaf with the smaller id ends strictly before the other starts. -/
  apart : ∀ leaf other text? other?, LeafAt log leaf text? → LeafAt log other other? →
    leaf.id < other.id → leaf.range.stop < other.range.pos
  width : ∀ leaf text?, LeafAt log leaf text? → leaf.range.stop = leaf.range.pos + textWidth text?
  /-- Where a kind has a fixed text, that is the text of the leaf. -/
  fixed : ∀ leaf text?, LeafAt log leaf text? → ∀ text, leaf.kind.text? = some text →
    text? = some text

/-- **Leaves are laid out without overlap in the order of their ids**, all that were ever created,
and each is as wide as its text. -/
theorem leaves_apart {forms : List Form} {w : Workshop} (built : ofForms forms = .ok w) :
    ∃ log, w.Ledger (Form.productionsAll forms) log := by
  obtain ⟨log, hrecorded, hcounts, hpieces⟩ := recorded_chronicle.ofForms built
    (fun _ _ _ _ _ _ _ => trivial) ⟨[], .start, ⟨rfl, rfl⟩, nofun⟩
  refine ⟨log, hrecorded, hcounts.nextId, fun l hl => ?_, fun n hn => ?_,
    fun _ _ _ _ h h' => h.stop_lt h', fun leaf text? h => ?_, fun leaf text? h text ht => ?_⟩
  · obtain ⟨p, hp, hl⟩ := List.mem_flatMap.mp hl
    exact (hpieces p hp).leaf hl
  · obtain ⟨value, hv, hn⟩ := hn
    exact (hpieces _ hv n hn).1
  · obtain ⟨before, after, -, -, hrange⟩ := h
    rw [hrange]
  · obtain ⟨before, after, rfl, -⟩ := h
    exact hrecorded.text?_eq (List.mem_append_right _ List.mem_cons_self) ht

end Workshop

/-- Two leaves were created for `!this`, and one of them was dropped. -/
theorem leaves_apart_sampleNegation :
    Workshop.ofForms sampleNegationForms = .ok sampleNegationWorkshop ∧
      ∃ log, sampleNegationWorkshop.Ledger [.thisExpression, .prefixUnary .exclamationToken] log :=
  ⟨ofForms_sampleNegationForms, Workshop.leaves_apart ofForms_sampleNegationForms⟩

end InlineLocals
