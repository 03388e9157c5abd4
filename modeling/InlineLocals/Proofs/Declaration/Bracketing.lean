import Mathlib
import InlineLocals.Proofs.Declaration.Chain
import InlineLocals.Proofs.Declaration.CallSite
import InlineLocals.Proofs.Declaration.Policy

/-!
# Declaration — Bracketing

The bracketing of a chain does not matter.  A search of binary operators is the plain recursion and
the search of the operands from left to right (`Chain`), so in one tree two chains of the same
operands are searched alike.  Two chains can also be built around the same operands in two
workshops, each being a tree of its own.  Then the nodes above the operands differ, but no
declaration gets past its operand: neither an argument nor its list is an expression, so the way up
from a declaration leaves the shape of a call before it leaves the operand, and a declaration that
is itself an operand stands below a binary operator in both trees.
-/

namespace InlineLocals

namespace Node

/-! ### Operands in a tree -/

theorem operands_ne_nil (n : Node) : n.operands ≠ [] := by
  fun_induction operands n with
  | case1 label left right h ihl ihr => exact fun hnil => ihl (List.append_eq_nil_iff.mp hnil).1
  | case2 => exact List.cons_ne_nil _ _
  | case3 => exact List.cons_ne_nil _ _

theorem operands_of_kind_ne {n : Node} (hk : n.kind ≠ .binaryExpression) : n.operands = [n] := by
  match n, hk with
  | mk label [left, right], hk => rw [operands, if_neg (show label.kind ≠ _ from hk)]
  | mk label [], _ | mk label [_], _ | mk label (_ :: _ :: _ :: _), _ =>
      rw [operands]
      nofun

/-- The operands on the left come before those on the right. -/
theorem operands_binary {n left right : Node} (hk : n.kind = .binaryExpression)
    (hc : n.children = [left, right]) : n.operands = left.operands ++ right.operands := by
  match n, hk, hc with
  | mk label [_, _], hk, hc =>
      cases hc
      rw [operands, if_pos (show label.kind = _ from hk)]

/-- An operand of a binary operator is an expression, and stands below a binary operator. -/
theorem Grammatical.operand {n : Node} (h : n.Grammatical) (hk : n.kind = .binaryExpression) :
    ∀ {o : Node}, o ∈ n.operands →
      o.kind.isExpression = true ∧ ∃ p, n.ParentIn p o ∧ p.kind = .binaryExpression := by
  induction n using Node.induction with
  | step n ih =>
      intro o ho
      obtain ⟨left, right, hc, hl, hr⟩ := h.shaped.binaryExpression hk
      -- An operand of a child is the child itself, or stands below the child's operator.
      have below {child : Node} (hm : child ∈ n.children) (he : child.kind.isExpression = true)
          (ho : o ∈ child.operands) :
          o.kind.isExpression = true ∧ ∃ p, n.ParentIn p o ∧ p.kind = .binaryExpression := by
        have hw := within_of_mem_children hm
        by_cases hb : child.kind = .binaryExpression
        · obtain ⟨heo, p, hp, hkp⟩ := ih child hm (h.within hw) hb ho
          exact ⟨heo, p, ⟨hp.1.trans hw, hp.2⟩, hkp⟩
        · rw [operands_of_kind_ne hb, List.mem_singleton] at ho
          subst ho
          exact ⟨he, n, ⟨.refl n, hm⟩, hk⟩
      rw [operands_binary hk hc, List.mem_append] at ho
      rcases ho with ho | ho
      · exact below (by simp [hc]) hl ho
      · exact below (by simp [hc]) hr ho

/-- The operands tell whether there is a binary operator. -/
theorem Grammatical.kind_of_operands_eq {m n : Node} (hm : m.Grammatical)
    (h : m.operands = n.operands) (hk : n.kind ≠ .binaryExpression) : m = n := by
  rw [operands_of_kind_ne hk] at h
  by_cases hb : m.kind = .binaryExpression
  · obtain ⟨left, right, hc, -⟩ := hm.shaped.binaryExpression hb
    have hl := List.length_pos_iff.mpr left.operands_ne_nil
    have hr := List.length_pos_iff.mpr right.operands_ne_nil
    have hlen := congrArg List.length h
    rw [operands_binary hb hc, List.length_append, List.length_singleton] at hlen
    omega
  · rw [operands_of_kind_ne hb] at h
    exact (List.cons_eq_cons.mp h).1

/-! ### The way up within a part of a tree -/

/-- Every node but the root has a parent. -/
theorem Within.exists_parent {root x : Node} (h : x.Within root) (hne : x ≠ root) :
    ∃ p, root.ParentIn p x := by
  induction root using Node.induction with
  | step root ih =>
      rcases within_iff.mp h with rfl | ⟨child, hc, hx⟩
      · exact absurd rfl hne
      · have hw := within_of_mem_children hc
        by_cases he : x = child
        · exact ⟨root, .refl root, he ▸ hc⟩
        · obtain ⟨p, hp⟩ := ih child hc hx he
          exact ⟨p, hp.1.trans hw, hp.2⟩

/-- Parents in a part are parents in the whole. -/
theorem ParentIn.mono {part root p x : Node} (hw : part.Within root) (h : part.ParentIn p x) :
    root.ParentIn p x :=
  ⟨h.1.trans hw, h.2⟩

/-- A way up within a part is a way up in the whole. -/
theorem Climbs.mono {part root n top : Node} {shape : List (Kind → Bool)} (hw : part.Within root)
    (h : part.Climbs shape n top) : root.Climbs shape n top := by
  induction h with
  | nil n => exact .nil n
  | cons hp ha _ ih => exact .cons (hp.mono hw) ha ih

/-- A way up that leaves its shape at a node of the part leaves it in the whole. -/
theorem Breaks.mono {part root n : Node} {shape : List (Kind → Bool)} {kind : Kind}
    (hw : part.Within root) (h : part.Breaks shape n (some kind)) :
    root.Breaks shape n (some kind) := by
  generalize hc : some kind = context at h
  induction h with
  | ends => cases hc
  | here hp ha => exact .here (hp.mono hw) ha
  | above hp ha _ ih => exact .above (hp.mono hw) ha (ih hc)

/-- The call around `d`, if there is one, does not lie within the part, for its root is `d`, the
argument with `d`, or the list with this argument. -/
inductive CutOff (part : Node) : Node → Prop where
  | declaration : CutOff part part
  | argument {d : Node} (hk : part.kind = .argument) (hd : d ∈ part.children) : CutOff part d
  | list {argument d : Node} (hl : part.kind.isArgumentList = true)
      (ha : argument ∈ part.children) (hk : argument.kind = .argument)
      (hd : d ∈ argument.children) : CutOff part d

/-- The way up from a node ends at the root of the part that it lies within. -/
theorem Breaks.cutOff {part d : Node} (hd : d.Within part)
    (h : part.Breaks callShape d none) : part.CutOff d := by
  -- What has no parent in the part is its root.
  have root {n : Node} (hn : n.Within part) (hp : ∀ p, ¬ part.ParentIn p n) : n = part := by
    by_contra hne
    obtain ⟨p, h⟩ := hn.exists_parent hne
    exact hp p h
  rcases h with h | _ | ⟨ha, hka, h⟩
  · obtain rfl := root hd h
    exact .declaration
  · rcases h with h | _ | ⟨hl, hkl, h⟩
    · obtain rfl := root ha.1 h
      exact .argument (beq_iff_eq.mp hka) ha.2
    · rcases h with h | _ | ⟨-, -, h⟩
      · obtain rfl := root hl.1 h
        exact .list hkl hl.2 (beq_iff_eq.mp hka) ha.2
      · cases h

/-- The way up from below an expression leaves the shape of a call, if it does, before it leaves
the expression: neither an argument nor its list is an expression. -/
theorem Breaks.mono_of_isExpression {o root d : Node} {context : Option Kind}
    (he : o.kind.isExpression = true) (hw : o.Within root) (hd : d.Within o) (hne : d ≠ o)
    (h : o.Breaks callShape d context) : root.Breaks callShape d context := by
  cases context with
  | some kind => exact h.mono hw
  | none =>
      cases h.cutOff hd with
      | declaration => exact absurd rfl hne
      | argument hk =>
          rw [hk] at he
          cases he
      | list hl =>
          have := Kind.forall_of_all (P := fun kind => !kind.isArgumentList || !kind.isExpression)
            (by decide) o.kind
          simp [hl, he] at this

end Node

namespace Tree

/-- Below an operand, the call of a declaration does not depend on what the operand is part of. -/
theorem declaringCall_below_operand {forms : List Form} {w : Workshop} {root o d : Node}
    (built : Workshop.ofForms forms = .ok w) (hr : w.Holds root)
    (he : o.kind.isExpression = true) (hw : o.Within root) (hd : d.Within o) (hne : d ≠ o) :
    (ofRoot root).declaringCall d = (ofRoot o).declaringCall d := by
  have ho := hr.within hw
  have hheld := ho.within hd
  rcases o.climbs_or_breaks Node.callShape d with ⟨c, hc⟩ | ⟨context, hb⟩
  · rw [(declaringCall_eq_ok_iff_climbs built ho hheld).mpr hc,
      (declaringCall_eq_ok_iff_climbs built hr hheld).mpr (hc.mono hw)]
  · rw [(declaringCall_eq_error_iff (e := ⟨context, d.range.pos⟩) built ho hheld).mpr ⟨hb, rfl⟩,
      (declaringCall_eq_error_iff (e := ⟨context, d.range.pos⟩) built hr hheld).mpr
        ⟨hb.mono_of_isExpression he hw hd hne, rfl⟩]

/-- A declaration that is itself an operand stands in no call. -/
theorem declaringCall_operand {forms : List Form} {w : Workshop} {root p o : Node}
    (built : Workshop.ofForms forms = .ok w) (hr : w.Holds root) (hp : root.ParentIn p o)
    (hk : p.kind = .binaryExpression) :
    (ofRoot root).declaringCall o = .error ⟨some .binaryExpression, o.range.pos⟩ := by
  have hheld := (hr.within hp.1).child hp.2
  refine (declaringCall_eq_error_iff built hr hheld).mpr ⟨?_, rfl⟩
  rw [← hk]
  exact .here hp (by rw [hk]; rfl)

end Tree

namespace Search

variable {σ S : Type}

/-- Lists whose nodes are searched alike are searched alike. -/
theorem visitAll_congr {s s' : Search σ S} : ∀ {ns : List Node},
    (∀ n ∈ ns, s.visit n = s'.visit n) → s.visitAll ns = s'.visitAll ns
  | [], _ => by rw [visitAll_nil, visitAll_nil]
  | n :: ns, h => by
      rw [visitAll_cons, visitAll_cons, h n List.mem_cons_self,
        visitAll_congr fun m hm => h m (List.mem_cons_of_mem _ hm)]

/-- A report looks at the tree for the call only. -/
theorem report_eq_of_declaringCall_eq (s : Search σ S) {t t' : Tree} {d : Node}
    (h : t.declaringCall d = t'.declaringCall d) :
    report { s with tree := t } d = report { s with tree := t' } d := by
  unfold report
  simp only [h]

/-- A search depends on the tree through the calls of the declarations only. -/
theorem visit_eq_of_declaringCall_eq (s : Search σ S) {t t' : Tree} {n : Node}
    (hg : n.Grammatical) (h : ∀ d : Node, d.Within n → t.declaringCall d = t'.declaringCall d) :
    visit { s with tree := t } n = visit { s with tree := t' } n := by
  rw [visit_eq_reached _ hg, visit_eq_reached _ hg]
  have hr : ∀ r ∈ n.reached true,
      report { s with tree := t } r.2 = report { s with tree := t' } r.2 := fun r hr =>
    s.report_eq_of_declaringCall_eq (h r.2 ⟨r.1, (Node.mem_reached.mp hr).2⟩)
  generalize n.reached true = rs at hr
  induction rs with
  | nil => rfl
  | cons r rs ih =>
      rw [List.forM_cons, List.forM_cons, hr r List.mem_cons_self,
        ih fun r hr' => hr r (List.mem_cons_of_mem _ hr')]

/-- Two bracketings of the same operands, each searched in a tree of its own. -/
theorem visit_ofRoot_eq_of_operands_eq (s : Search σ S) {forms forms' : List Form}
    {w w' : Workshop} {m n : Node} (built : Workshop.ofForms forms = .ok w)
    (built' : Workshop.ofForms forms' = .ok w') (hn : w.Holds n) (hm : w'.Holds m)
    (h : m.operands = n.operands) :
    visit { s with tree := .ofRoot m } m = visit { s with tree := .ofRoot n } n := by
  have hgn := hn.grammatical built
  have hgm := hm.grammatical built'
  by_cases hk : n.kind = .binaryExpression
  · by_cases hk' : m.kind = .binaryExpression
    · rw [visit_eq_visitAll_operands, visit_eq_visitAll_operands _ n, h]
      refine visitAll_congr ?_
      intro o ho
      obtain ⟨he, p, hp, hkp⟩ := hgn.operand hk ho
      obtain ⟨-, p', hp', hkp'⟩ := hgm.operand hk' (h ▸ ho)
      have hw := (Node.within_of_mem_children hp.2).trans hp.1
      have hw' := (Node.within_of_mem_children hp'.2).trans hp'.1
      refine s.visit_eq_of_declaringCall_eq (hgn.within hw) ?_
      intro d hd
      -- An operand itself has an operator above it in both trees; below one the way up is the same.
      by_cases hdo : d = o
      · rw [hdo, Tree.declaringCall_operand built' hm hp' hkp',
          Tree.declaringCall_operand built hn hp hkp]
      · rw [Tree.declaringCall_below_operand built' hm he hw' hd hdo,
          Tree.declaringCall_below_operand built hn he hw hd hdo]
    · rw [hgn.kind_of_operands_eq h.symm hk']
  · rw [hgm.kind_of_operands_eq h hk]

/-! ### Two bracketings of `this + true + null` -/

/-- The three operands, built before the chain. -/
def sampleOperands : List Form :=
  [.make .thisExpression [], .make (.boolLiteral true) [], .make .nullLiteral []]

def samplePlus (left right : Form) : Form := .make (.binary .plusToken) [[left], [right]]

def sampleThis : Node := .mk ⟨⟨.thisExpression, 1, ⟨0, 4⟩⟩, [], 0⟩ []

def sampleTrue : Node :=
  .mk ⟨⟨.trueLiteralExpression, 3, ⟨5, 9⟩⟩, [.token ⟨.trueKeyword, 2, ⟨5, 9⟩⟩], 0⟩ []

def sampleNull : Node :=
  .mk ⟨⟨.nullLiteralExpression, 5, ⟨10, 14⟩⟩, [.token ⟨.nullKeyword, 4, ⟨10, 14⟩⟩], 0⟩ []

/-- The operator that is built first, over `left` and `right`. -/
def sampleInner (range : Range) (left right : Node) : Node :=
  .mk ⟨⟨.binaryExpression, 7, range⟩, [.token ⟨.plusToken, 6, ⟨15, 16⟩⟩], 0⟩ [left, right]

/-- The operator that is built last. -/
def sampleOuter (left right : Node) : Node :=
  .mk ⟨⟨.binaryExpression, 9, ⟨0, 18⟩⟩, [.token ⟨.plusToken, 8, ⟨17, 18⟩⟩], 0⟩ [left, right]

/-- `(this + true) + null` -/
def sampleLeft : Node := sampleOuter (sampleInner ⟨0, 16⟩ sampleThis sampleTrue) sampleNull

/-- `this + (true + null)` -/
def sampleRight : Node := sampleOuter sampleThis (sampleInner ⟨5, 16⟩ sampleTrue sampleNull)

theorem ofForms_sampleLeft :
    Workshop.ofForms (sampleOperands ++ [samplePlus (samplePlus (.take 0) (.take 1)) (.take 2)]) =
      .ok ⟨10, 19, .empty, #[none, none, none, some (.node sampleLeft)]⟩ := by
  conv => lhs; cbv
  rfl

theorem ofForms_sampleRight :
    Workshop.ofForms (sampleOperands ++ [samplePlus (.take 0) (samplePlus (.take 1) (.take 2))]) =
      .ok ⟨10, 19, .empty, #[none, none, none, some (.node sampleRight)]⟩ := by
  conv => lhs; cbv
  rfl

/-! ### Chains -/

/-- **Chains of binary operators.**  The search of a node is the plain recursion, and the search of
the operands from left to right.  Two nodes with the same operands are searched alike, in one tree
and each in its own. -/
theorem visit_chain (s : Search σ S) (n : Node) :
    s.visit n = s.visitPlainly n ∧ s.visit n = s.visitAll n.operands ∧
      (∀ m : Node, m.operands = n.operands → s.visit m = s.visit n) ∧
      ∀ (forms forms' : List Form) (w w' : Workshop) (m : Node),
        Workshop.ofForms forms = .ok w → Workshop.ofForms forms' = .ok w' → w.Holds n →
        w'.Holds m → m.operands = n.operands →
          visit { s with tree := .ofRoot m } m = visit { s with tree := .ofRoot n } n := by
  refine ⟨s.visit_eq_visitPlainly n, s.visit_eq_visitAll_operands n, fun m h => ?_, ?_⟩
  · rw [visit_eq_visitAll_operands, h, ← visit_eq_visitAll_operands]
  · intro forms forms' w w' m built built' hn hm h
    exact s.visit_ofRoot_eq_of_operands_eq built built' hn hm h

/-- Two chains around the same operands, each in a workshop of its own. -/
theorem visit_chain_bracketings : ∃ w w' : Workshop,
    Workshop.ofForms (sampleOperands ++ [samplePlus (samplePlus (.take 0) (.take 1)) (.take 2)]) =
      .ok w ∧
    Workshop.ofForms (sampleOperands ++ [samplePlus (.take 0) (samplePlus (.take 1) (.take 2))]) =
      .ok w' ∧
    w.Holds sampleLeft ∧ w'.Holds sampleRight ∧ sampleLeft ≠ sampleRight ∧
    sampleRight.operands = sampleLeft.operands ∧
      let s : Search Unit Call := ⟨.ofRoot sampleLeft, Call.recorder, 0, none⟩
      s.visit sampleRight = s.visit sampleLeft ∧
        visit { s with tree := .ofRoot sampleRight } sampleRight =
          visit { s with tree := .ofRoot sampleLeft } sampleLeft := by
  have hn : Workshop.Holds ⟨10, 19, .empty, #[none, none, none, some (.node sampleLeft)]⟩
      sampleLeft := ⟨_, List.mem_singleton_self _, .refl _⟩
  have hm : Workshop.Holds ⟨10, 19, .empty, #[none, none, none, some (.node sampleRight)]⟩
      sampleRight := ⟨_, List.mem_singleton_self _, .refl _⟩
  have hne : sampleLeft ≠ sampleRight := fun h => by
    have hkinds := congrArg (fun n => n.children.map Node.kind) h
    cases hkinds
  have hops : sampleRight.operands = sampleLeft.operands := rfl
  let s : Search Unit Call := ⟨.ofRoot sampleLeft, Call.recorder, 0, none⟩
  obtain ⟨-, -, same, own⟩ := s.visit_chain sampleLeft
  exact ⟨_, _, ofForms_sampleLeft, ofForms_sampleRight, hn, hm, hne, hops, same _ hops,
    own _ _ _ _ _ ofForms_sampleLeft ofForms_sampleRight hn hm hops⟩

end Search

end InlineLocals
