import InlineLocals.Proofs.Syntax.Parent

/-!
# Syntax — Outline

What a tree says when ids and positions are left out, and with them all that lies in parts with
variables of their own: the parts of anonymous functions, the branches of statements, the sections
and the arms of switches.  What is left is the outline of the tree: kinds, and the texts of names.

Two trees with one outline have nodes at corresponding places (`Node.Twin`).  The parts that are
left out of one tree need not be those of the other, nor need there be as many.  Parents of twins
are twins (`Twin.exists_parent`), so the way up from one looks like the way up from the other.
-/

namespace InlineLocals

/-! ### Outlines -/

/-- The part at place `i` of a node of the kind is left out. -/
def Kind.suppresses (kind : Kind) (i : Nat) : Bool :=
  match kind with
  | .ifStatement | .whileStatement | .lockStatement | .switchStatement | .switchExpression => i != 0
  | .doStatement => i != 1
  | .parenthesizedLambdaExpression | .simpleLambdaExpression | .anonymousMethodExpression => true
  | _ => false

/-- What is left of a leaf. -/
inductive Writing where
  | token (kind : Kind)
  /-- A name, with its text if the table of names has one. -/
  | name (text : Option String)
  | discard
deriving DecidableEq

/-- The text of a name that is left; no other writing has one. -/
def Writing.name? : Writing → Option (Option String)
  | name text => some text
  | token _ | discard => none

/-- What a leaf looks like in print: its kind, its text, or nothing but that there is one. -/
def Leaf.writing (names : Names) : Leaf → Writing
  | token info => .token info.kind
  | identifier i => .name (names.text? i.name)
  | discard _ _ => .discard

/-- What is left of a tree. -/
inductive Outline where
  | mk (kind : Kind) (writings : List Writing) (parts : List Outline)

namespace Node

mutual

/-- The outline of a tree; the texts of its names are those of the table. -/
def outline (names : Names) : Node → Outline
  | mk label children =>
    .mk label.kind (label.leaves.map (·.writing names)) (outlineFrom names label.kind 0 children)

/-- The outlines of the parts of a node of the kind from place `i` on. -/
def outlineFrom (names : Names) (kind : Kind) (i : Nat) : List Node → List Outline
  | [] => []
  | child :: rest =>
    if kind.suppresses i then outlineFrom names kind (i + 1) rest
    else child.outline names :: outlineFrom names kind (i + 1) rest

end

section

variable {names names' : Names} {n n' : Node}

/-- The outline of a node: its kind, its leaves, and the outlines of the children that are not
suppressed. -/
theorem outline_eq (names : Names) (n : Node) : n.outline names =
    .mk n.kind (n.leaves.map (·.writing names)) (outlineFrom names n.kind 0 n.children) := by
  cases n
  rw [outline]
  rfl

theorem kind_eq_of_outline_eq (h : n.outline names = n'.outline names') : n.kind = n'.kind := by
  rw [outline_eq, outline_eq] at h
  exact (Outline.mk.inj h).1

theorem writings_eq_of_outline_eq (h : n.outline names = n'.outline names') :
    n.leaves.map (·.writing names) = n'.leaves.map (·.writing names') := by
  rw [outline_eq, outline_eq] at h
  exact (Outline.mk.inj h).2.1

theorem outlineFrom_eq_of_outline_eq (h : n.outline names = n'.outline names') :
    outlineFrom names n.kind 0 n.children = outlineFrom names' n.kind 0 n'.children := by
  have hk := kind_eq_of_outline_eq h
  rw [outline_eq, outline_eq] at h
  rw [(Outline.mk.inj h).2.2, hk]

/-- When no part is left out, the parts correspond one to one. -/
theorem forall₂_of_outlineFrom_eq {kind : Kind} (hk : ∀ i, kind.suppresses i = false) :
    ∀ {i : Nat} {ns ns' : List Node},
      outlineFrom names kind i ns = outlineFrom names' kind i ns' →
        List.Forall₂ (fun n n' => n.outline names = n'.outline names') ns ns'
  | _, [], [], _ => .nil
  | i, [], c :: cs, h => by
      rw [outlineFrom, outlineFrom, hk] at h
      cases h
  | i, c :: cs, [], h => by
      rw [outlineFrom, outlineFrom, hk] at h
      cases h
  | i, c :: cs, c' :: cs', h => by
      rw [outlineFrom, outlineFrom, hk] at h
      obtain ⟨hc, hcs⟩ := List.cons_eq_cons.mp h
      exact .cons hc (forall₂_of_outlineFrom_eq hk hcs)

/-- Where nothing is suppressed, the children have equal outlines, one by one. -/
theorem forall₂_children (h : n.outline names = n'.outline names')
    (hk : ∀ i, n.kind.suppresses i = false) :
    List.Forall₂ (fun c c' => c.outline names = c'.outline names') n.children n'.children :=
  forall₂_of_outlineFrom_eq hk (outlineFrom_eq_of_outline_eq h)

/-- The text of the first name that the node holds. -/
theorem map_text?_identifier? (names : Names) (n : Node) :
    n.identifier?.map (fun i => names.text? i.name) =
      (n.leaves.map (·.writing names)).findSome? Writing.name? := by
  rw [identifier?]
  induction n.leaves with
  | nil => rfl
  | cons leaf leaves ih =>
      cases leaf with
      | identifier i => rfl
      | token _ | discard _ _ => exact ih

/-- Nodes with equal outlines are named alike. -/
theorem text?_identifier?_eq (h : n.outline names = n'.outline names') :
    n.identifier?.map (fun i => names.text? i.name) =
      n'.identifier?.map (fun i => names'.text? i.name) := by
  rw [map_text?_identifier?, map_text?_identifier?, writings_eq_of_outline_eq h]

/-- Of nodes with equal outlines, the first types have equal outlines, if there are any. -/
theorem rel_find?_isType {ns ns' : List Node}
    (h : List.Forall₂ (fun c c' => c.outline names = c'.outline names') ns ns') :
    Option.Rel (fun c c' => c.outline names = c'.outline names')
      (ns.find? fun c => c.kind.isType) (ns'.find? fun c => c.kind.isType) := by
  induction h with
  | nil => exact .none
  | cons hc _ ih =>
      rw [List.find?_cons, List.find?_cons, ← kind_eq_of_outline_eq hc]
      split
      · exact .some hc
      · exact ih

/-- When no part is left out, the types that the nodes name have one outline. -/
theorem rel_type? (h : n.outline names = n'.outline names')
    (hk : ∀ i, n.kind.suppresses i = false) :
    Option.Rel (fun c c' => c.outline names = c'.outline names') n.type? n'.type? :=
  rel_find?_isType (forall₂_children h hk)

end

/-! ### Twins -/

/-- The nodes stand at corresponding places of the trees below `root` and `root'`: they are the
roots, or children of corresponding nodes, and their outlines are the same. -/
inductive Twin (names names' : Names) (root root' : Node) : Node → Node → Prop where
  | root (h : root.outline names = root'.outline names') : Twin names names' root root' root root'
  | child {n n' c c' : Node} (hn : Twin names names' root root' n n') (hc : c ∈ n.children)
      (hc' : c' ∈ n'.children) (h : c.outline names = c'.outline names') :
      Twin names names' root root' c c'

namespace Twin

variable {names names' : Names} {root root' n n' : Node}

theorem outline_eq (h : Twin names names' root root' n n') :
    n.outline names = n'.outline names' := by
  cases h with
  | root h | child _ _ _ h => exact h

/-- Twins lie within their roots. -/
theorem within (h : Twin names names' root root' n n') : n.Within root ∧ n'.Within root' := by
  induction h with
  | root _ => exact ⟨.refl root, .refl root'⟩
  | child _ hc hc' _ ih =>
      exact ⟨(within_of_mem_children hc).trans ih.1, (within_of_mem_children hc').trans ih.2⟩

theorem symm (h : Twin names names' root root' n n') : Twin names' names root' root n' n := by
  induction h with
  | root h => exact .root h.symm
  | child _ hc hc' h ih => exact .child ih hc' hc h.symm

/-- The parents of twins are twins. -/
theorem exists_parent {forms : List Form} {w : Workshop} (built : Workshop.ofForms forms = .ok w)
    (hr : w.Holds root) (h : Twin names names' root root' n n') {p : Node}
    (hp : root.ParentIn p n) : ∃ p', root'.ParentIn p' n' ∧ Twin names names' root root' p p' := by
  cases h with
  | root => exact absurd hp (not_parentIn_self root p)
  | @child m m' _ _ hm hc hc' _ =>
      obtain rfl := (hr.within hp.1).eq_of_mem_children built (hr.within hm.within.1) hp.2 hc
      exact ⟨m', ⟨hm.within.2, hc'⟩, hm⟩

end Twin

end Node

end InlineLocals
