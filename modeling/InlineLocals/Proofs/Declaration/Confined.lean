import InlineLocals.Proofs.Declaration.Policy
import InlineLocals.Proofs.Syntax.Parent

/-!
# Declaration — Confined

A search stays in one container.  Blocks, sections of a switch and calls to another constructor
have scopes of their own; what lies in one of them and in no other one below it belongs to it
(`Node.Belongs`), and on the way up from there it is the first container
(`Belongs.inContainer`).

Containers stand below statements, lambdas and other containers only.  A search leaves these parts
out, so from a node of another kind it comes to no container (`Shaped.confined_of_not_bars`), and
all it comes to belongs to the container of that node (`Belongs.of_admits`).
-/

namespace InlineLocals

/-! ### Containers in a tree -/

/-- The nodes whose variables have a scope of their own. -/
def Kind.isContainer : Kind → Bool
  | .block | .switchSection | .thisConstructorInitializer | .baseConstructorInitializer => true
  | _ => false

namespace Node

/-- In the tree below `root`, `c` is the first container on the way up from `n`. -/
inductive InContainer (root : Node) : Node → Node → Prop where
  | here {c : Node} (hk : c.kind.isContainer = true) : InContainer root c c
  | above {n p c : Node} (hk : n.kind.isContainer = false) (hp : root.ParentIn p n)
      (h : InContainer root p c) : InContainer root n c

/-- A node has one first container on its way up. -/
theorem InContainer.unique {forms : List Form} {w : Workshop} {root n c c' : Node}
    (built : Workshop.ofForms forms = .ok w) (hr : w.Holds root) (h : root.InContainer n c)
    (h' : root.InContainer n c') : c = c' := by
  induction h with
  | here hk =>
      cases h' with
      | here => rfl
      | above hk' => rw [hk] at hk'; cases hk'
  | above hk hp _ ih =>
      cases h' with
      | here hk' => rw [hk] at hk'; cases hk'
      | above _ hp' h' =>
          obtain rfl := (hr.within hp'.1).eq_of_mem_children built (hr.within hp.1) hp'.2 hp.2
          exact ih h'

/-- `n` lies below `c`, and no container stands between them; nor is `n` one. -/
inductive Belongs (c : Node) : Node → Prop where
  | direct {n : Node} (hc : n ∈ c.children) (hk : n.kind.isContainer = false) : Belongs c n
  | deeper {m n : Node} (h : Belongs c m) (hc : n ∈ m.children)
      (hk : n.kind.isContainer = false) : Belongs c n

/-- What belongs to a container has it as its nearest one. -/
theorem Belongs.inContainer {root c n : Node} (hc : c.Within root)
    (hk : c.kind.isContainer = true) (h : c.Belongs n) :
    n.Within root ∧ root.InContainer n c := by
  induction h with
  | direct hm hn => exact ⟨(within_of_mem_children hm).trans hc, .above hn ⟨hc, hm⟩ (.here hk)⟩
  | deeper _ hm hn ih =>
      exact ⟨(within_of_mem_children hm).trans ih.1, .above hn ⟨ih.1, hm⟩ ih.2⟩

end Node

/-! ### Kinds from which a search comes to no container -/

/-- No search comes from a node of the kind to a container, nor is the node one. -/
def Kind.confined (kind : Kind) : Bool :=
  !kind.isContainer && kind != .forStatement && kind != .forEachStatement

/-- What is confined is no container. -/
theorem Kind.isContainer_of_confined {kind : Kind} (h : kind.confined = true) :
    kind.isContainer = false := by
  simp only [confined, Bool.and_eq_true, Bool.not_eq_true'] at h
  exact h.1.1

/-- Expressions are confined. -/
theorem Kind.confined_of_isExpression {kind : Kind} (h : kind.isExpression = true) :
    kind.confined = true := by
  have hall := forall_of_all (P := fun kind => !kind.isExpression || kind.confined) (by decide) kind
  simpa [h] using hall

/-- The part is a leaf or of kinds that are confined. -/
def Part.confined : Part → Bool
  | .of .statement | .of .lambdaBody | .of .switchSection => false
  | .of _ | .token | .identifier => true
  | .node kind => kind.confined

theorem Part.confined_of_admitsKind {part : Part} {kind : Kind} (hp : part.confined = true)
    (ha : part.admitsKind kind = true) : kind.confined = true := by
  cases part with
  | token | identifier => cases ha
  | node k => rw [beq_iff_eq.mp ha]; exact hp
  | of category =>
      have hall : Kind.all.all (fun kind => !category.hasKind kind || kind.confined) = true := by
        cases category with
        | statement | lambdaBody | switchSection => cases hp
        | _ => decide
      have h := Kind.forall_of_all (P := fun kind => !category.hasKind kind || kind.confined)
        hall kind
      have ha : category.hasKind kind = true := ha
      simpa [ha] using h

/-- The kinds with a part that is not searched. -/
def Kind.shields : Kind → Bool
  | .ifStatement | .whileStatement | .lockStatement | .switchStatement | .doStatement
  | .switchSection | .parenthesizedLambdaExpression | .simpleLambdaExpression
  | .anonymousMethodExpression => true
  | _ => false

namespace Node.Shaped

variable {n child : Node} (h : n.Shaped)
include h

/-- So are the children of what is confined, unless it shields them. -/
theorem confined_of_mem_children (hk : n.kind.confined = true) (hs : n.kind.shields = false)
    (hc : child ∈ n.children) : child.kind.confined = true := by
  have hrooms := Kind.forall_of_all
    (P := fun kind => !kind.confined || kind.shields || kind.childRooms.all (·.part.confined))
    (by decide) n.kind
  rw [hk, hs] at hrooms
  obtain ⟨room, hr, ha⟩ := h.children.exists_room hc
  exact Part.confined_of_admitsKind (List.all_eq_true.mp hrooms room hr) ha

/-- What is governed by a condition or a value has it as the first child. -/
theorem confined_of_head (hk : n.kind = .ifStatement ∨ n.kind = .whileStatement ∨
    n.kind = .lockStatement ∨ n.kind = .switchStatement) (hc : n.children[0]? = some child) :
    child.kind.confined = true := by
  have hf : ∃ rooms, Room.Fit Part.admitsNode (.one (.of .expression) :: rooms) n.children := by
    rcases hk with hk | hk | hk | hk <;> exact ⟨_, h.fit hk⟩
  obtain ⟨rooms, hf⟩ := hf
  obtain ⟨x, rest, hn, ha, -⟩ := Room.fit_one.mp hf
  rw [hn] at hc
  cases hc
  exact Kind.confined_of_isExpression ha

theorem confined_of_doStatement (hk : n.kind = .doStatement) (hc : n.children[1]? = some child) :
    child.kind.confined = true := by
  obtain ⟨body, condition, hn, -, ha⟩ := Room.fit_pair.mp (h.fit hk)
  rw [hn] at hc
  cases hc
  exact Kind.confined_of_isExpression ha

/-- Of a section of a switch, all but the statements are confined. -/
theorem confined_of_switchSection (hk : n.kind = .switchSection) (hc : child ∈ n.children)
    (hs : child.kind.isStatement = false) : child.kind.confined = true := by
  have hall := Kind.forall_of_all
    (P := fun kind => !Kind.mayHold .switchSection kind || kind.isStatement || kind.confined)
    (by decide) child.kind
  have hm := h.mayHold hc
  rw [hk] at hm
  simpa [hm, hs] using hall

/-- A step that is not barred leads to no container. -/
theorem confined_of_not_bars {first : Bool} {i : Nat}
    (hk : n.kind.confined = true ∨ n.kind = .switchSection) (hc : n.children[i]? = some child)
    (hb : n.bars first i child = false) : child.kind.confined = true := by
  have hmem := List.mem_of_getElem? hc
  by_cases hs : n.kind.shields = true
  · unfold Kind.shields at hs
    split at hs
    -- Four kinds of nodes are searched in their first child only.
    iterate 4
      · next he =>
        obtain rfl : i = 0 := by simpa [bars, he] using hb
        exact h.confined_of_head (by simp [he]) hc
    · next he =>
      obtain rfl : i = 1 := by simpa [bars, he] using hb
      exact h.confined_of_doStatement he hc
    · next he =>
      simp only [bars, he, Bool.or_eq_false_iff] at hb
      exact h.confined_of_switchSection he hmem hb.1.1
    iterate 3
      · next he => simp [bars, he] at hb
    · cases hs
  · have hk : n.kind.confined = true := by
      rcases hk with hk | hk
      · exact hk
      · rw [hk] at hs; exact absurd rfl hs
    exact h.confined_of_mem_children hk (by simpa using hs) hmem

end Node.Shaped

namespace Node

/-- What a search comes to, from the container or from what belongs to it, belongs to it. -/
theorem Belongs.of_admits {c m : Node} : ∀ {path : List Nat} {first : Bool} {n : Node},
    n.Grammatical → n.kind.confined = true ∨ n.kind = .switchSection → n = c ∨ c.Belongs n →
      n.Admits first path → n.at? path = some m → m = n ∨ c.Belongs m
  | [], _, n, _, _, _, _, hm => by
      rw [at?_nil] at hm
      exact .inl (Option.some.inj hm).symm
  | i :: path, first, n, hg, hk, hn, ⟨child, hc, hb, ha⟩, hm => by
      obtain ⟨other, ho, hm⟩ := at?_cons_eq_some_iff.mp hm
      rw [hc] at ho
      cases ho
      have hmem := List.mem_of_getElem? hc
      have hconfined := hg.shaped.confined_of_not_bars hk hc hb
      -- A search does not step into another container, so the child still belongs to `c`.
      have hout := Kind.isContainer_of_confined hconfined
      have hchild : c.Belongs child := by
        rcases hn with rfl | hn
        · exact .direct hmem hout
        · exact .deeper hn hmem hout
      rcases of_admits (hg.child hmem) (.inl hconfined) (.inr hchild)
        ha hm with rfl | h
      · exact .inr hchild
      · exact .inr h

end Node

end InlineLocals
