import InlineLocals.Proofs.Declaration.Designations
import InlineLocals.Proofs.Scope.Adding

/-!
# Declaration — Ascending

Variables are found in the order of the text.  A search reports the nodes it comes to in
postorder, and what the sites among them declare are their designations.  So the names that it
tells the factory, up to where it ends, are some of the designations of the tree, in their order
(`Search.exists_calls_sublist`).  In a value that one form builds from left to right these stand at
increasing positions, hence so do the variables that are found, and none of them is found twice
(`Search.find_ascending`).
-/

namespace InlineLocals

/-- The name that the factory is told. -/
def Call.identifier : Call → Identifier
  | pattern _ _ name _ | out _ _ _ name _ => name

/-- The name that the node itself declares, if it declares one. -/
def Node.declared (n : Node) : List Identifier := if n.isSite then n.identifier?.toList else []

namespace Node

theorem mem_declared {n : Node} {i : Identifier} :
    i ∈ n.declared ↔ n.isSite = true ∧ n.identifier? = some i := by
  unfold declared
  split
  · next h => simp [h]
  · next h => simp [h]

theorem declared_sublist (n : Node) :
    (n.declared.map Leaf.identifier).Sublist n.ownDesignations := by
  cases hs : n.isSite with
  | false => simp [declared, hs]
  | true =>
      have hk : n.kind.declares = true := by
        simp only [isSite, Bool.and_eq_true] at hs
        exact hs.1
      rw [declared, if_pos hs, ownDesignations, if_pos hk]
      cases hi : n.identifier? with
      | none => exact List.nil_sublist _
      | some i => exact List.singleton_sublist.mpr (mem_leaves_of_identifier? hi)

end Node

namespace Search

variable {σ S : Type}

/-- A report that goes through tells the name that the node declares. -/
theorem request_declared (s : Search σ S) {n : Node} (h : n.Shaped) {call? : Option Call}
    (hr : s.request n = .ok call?) : call?.toList.map Call.identifier = n.declared := by
  cases hs : n.isSite with
  | false =>
      rw [request, Node.site?_of_not_isSite hs] at hr
      cases hr
      simp [Node.declared, hs]
  | true =>
      rw [Node.declared, if_pos hs]
      rcases s.request_site h hs with ⟨-, type, -, e⟩ | ⟨-, type?, e, -⟩
      · rw [e] at hr
        cases hc : s.tree.declaringCall n with
        | error err => rw [hc] at hr; cases hr
        | ok call =>
            rw [hc] at hr
            cases hr
            cases n.identifier? <;> rfl
      · rw [e] at hr
        cases hr
        cases n.identifier? <;> rfl

theorem map_identifier_calls (s : Search σ S) {ns : List Node} (h : ∀ n ∈ ns, n.Shaped)
    (hr : ∀ n ∈ ns, ∃ call?, s.request n = .ok call?) :
    (s.calls ns).map Call.identifier = ns.flatMap Node.declared := by
  rw [calls, List.map_flatMap]
  refine List.flatMap_congr fun n hn => ?_
  obtain ⟨call?, hc⟩ := hr n hn
  rw [hc]
  exact s.request_declared (h n hn) hc

/-- However reports end, those before the end went through. -/
theorem exists_prefix_run_forM_report (s : Search σ S) (ns : List Node) (p : Progress σ S) :
    ∃ done r, done <+: ns ∧ (∀ n ∈ done, ∃ call?, s.request n = .ok call?) ∧
      (forM ns s.report).run p = (p.after s.factory (s.calls done)).ending r := by
  rcases s.requests_or_error ns with h | ⟨before, d, rest, e, rfl, h, he⟩
  · exact ⟨ns, .ok (), List.prefix_rfl, h, s.run_forM_report p h⟩
  · exact ⟨before, .error e, List.prefix_append _ _, h, s.run_forM_report_of_error rest p h he⟩

/-- The names that a search tells are some of the designations of the tree, in their order. -/
theorem exists_calls_sublist (s : Search σ S) {n : Node} (h : n.Grammatical) (p : Progress σ S) :
    ∃ calls r, (s.find (some n)).run p = (p.after s.factory calls).ending r ∧
      ((calls.map Call.identifier).map Leaf.identifier).Sublist n.designations ∧
      ∀ i ∈ calls.map Call.identifier, ∃ m : Node, m.Within n ∧ i ∈ m.declared := by
  have hv : s.find (some n) = forM ((n.reached true).map Prod.snd) s.report := by
    rw [find, visit_eq_reached s h, List.forM_map]
  obtain ⟨done, r, hdone, hreq, hrun⟩ :=
    s.exists_prefix_run_forM_report ((n.reached true).map Prod.snd) p
  have hwithin : ∀ m ∈ done, m.Within n := by
    intro m hm
    obtain ⟨⟨path, k⟩, hk, rfl⟩ := List.mem_map.mp (hdone.subset hm)
    exact ⟨path, (Node.mem_reached.mp hk).2⟩
  have hcalls := s.map_identifier_calls (fun m hm => h m (hwithin m hm)) hreq
  refine ⟨s.calls done, r, hv ▸ hrun, ?_, ?_⟩
  · rw [hcalls, List.map_flatMap]
    -- The search skips nodes of the postorder but never changes their order.
    have horder : done.Sublist n.postorder :=
      hdone.sublist.trans (Node.sublist_postorder_reached true n)
    exact (List.Sublist.flatMap_right _ fun m _ => m.declared_sublist).trans (horder.flatMap _)
  · rw [hcalls]
    intro i hi
    obtain ⟨m, hm, hi⟩ := List.mem_flatMap.mp hi
    exact ⟨m, hwithin m hm, hi⟩

/-- **Variables are found at increasing positions.**  When a form builds a tree without taking
anything from the shelf, the search of a node in it, wherever the node lies and however the search
ends, finds variables that are declared one after the other, each of them once. -/
theorem find_ascending {before : List Form} {v v' : Workshop} {form : Form} {value n : Node}
    (built : Workshop.ofForms before = .ok v)
    (hform : ∀ f ∈ form.subforms, ∀ place, f ≠ .take place)
    (run : form.eval.run v = .ok (.node value, v')) (hn : n.Within value) {s : Locals}
    {names : Names} (hf : s.factory = LocalSymbol.factory names)
    (p : Progress SymbolId LocalSymbol) :
    ∃ (new : List LocalSymbol) (declaring : List Identifier) (r : Except ContextError Unit),
      (s.find (some n)).run p = Progress.ending ⟨p.found ++ new, p.state + new.length⟩ r ∧
      (new.map (·.range.pos)).Pairwise (· < ·) ∧
      new.map (fun x => (x.name, x.range)) = declaring.map (fun i => (i.name, i.range)) ∧
      declaring.Nodup ∧
      ∀ i ∈ declaring, ∃ m : Node, m.Within n ∧ m.isSite = true ∧ m.identifier? = some i := by
  have hg : n.Grammatical := (Form.grammatical_of_run built run).within hn
  obtain ⟨calls, r, hrun, hsub, hdeclared⟩ := s.exists_calls_sublist hg p
  have hpos : ((calls.map Call.identifier).map (·.range.pos)).Pairwise (· < ·) := by
    have h := (Form.ascending_of_run hform run).pairwise.sublist
      ((hsub.trans hn.sublist_designations).map (·.range.pos))
    rwa [List.map_map] at h
  let new := LocalSymbol.number p.state (calls.map (Call.symbol names))
  -- Numbering leaves names and ranges alone, and these the factory takes from the identifier.
  have hnew : new.map (fun x => (x.name, x.range)) =
      (calls.map Call.identifier).map fun i => (i.name, i.range) := by
    rw [LocalSymbol.map_number (fun _ _ => rfl), List.map_map, List.map_map]
    refine List.map_congr_left fun call _ => ?_
    cases call <;> rfl
  refine ⟨new, calls.map Call.identifier, r, ?_, ?_, hnew, ?_, ?_⟩
  · rw [hrun, hf, Progress.after_factory, Progress.adding, LocalSymbol.length_number]
  · have h := congrArg (List.map fun q : Name × Range => q.2.pos) hnew
    rw [List.map_map, List.map_map] at h
    exact h ▸ hpos
  · exact .of_map (fun i : Identifier => i.range.pos) (hpos.imp Nat.ne_of_lt)
  · intro i hi
    obtain ⟨m, hm, hd⟩ := hdeclared i hi
    exact ⟨m, hm, Node.mem_declared.mp hd⟩

/-! ### The pattern `{ : var x } y` -/

/-- The pattern; `x` and `y` are the names that the workshop has for the texts. -/
def sampleNested (x y : Name) : Node :=
  .mk ⟨⟨.recursivePattern, 4, ⟨0, 3⟩⟩, [.identifier ⟨3, ⟨2, 3⟩, y⟩], 0⟩
    [.mk ⟨⟨.subpattern, 2, ⟨0, 1⟩⟩, [], 0⟩
      [.mk ⟨⟨.varPattern, 1, ⟨0, 1⟩⟩, [.identifier ⟨0, ⟨0, 1⟩, x⟩], 0⟩ []]]

def sampleNestedForm : Form :=
  .make .recursivePattern
    [[], [.make (.subpattern none) [[.make .varPattern [[.designation "x"]]]]], [],
      [.designation "y"]]

/-- The variable inside is found first. -/
theorem find_ascending_sampleNested : ∃ (x y : Name) (v' : Workshop) (first second : LocalSymbol),
    sampleNestedForm.eval.run {} = .ok (.node (sampleNested x y), v') ∧
      let s : Locals := ⟨.ofRoot (sampleNested x y), LocalSymbol.factory v'.names, 0, none⟩
      let p : Progress SymbolId LocalSymbol := ⟨#[], 0⟩
      (s.find (some (sampleNested x y))).run p = .ok () ⟨#[first, second], 2⟩ ∧
      first.range = ⟨0, 1⟩ ∧ second.range = ⟨2, 3⟩ ∧
      ∃ (new : List LocalSymbol) (declaring : List Identifier) (r : Except ContextError Unit),
        (s.find (some (sampleNested x y))).run p =
          Progress.ending ⟨p.found ++ new, p.state + new.length⟩ r ∧
        (new.map (·.range.pos)).Pairwise (· < ·) ∧
        new.map (fun x => (x.name, x.range)) = declaring.map (fun i => (i.name, i.range)) ∧
        declaring.Nodup ∧
        ∀ i ∈ declaring, ∃ m : Node, m.Within (sampleNested x y) ∧ m.isSite = true ∧
          m.identifier? = some i := by
  let x := Names.empty.intern "x"
  let y := x.2.intern "y"
  let n := sampleNested x.1 y.1
  let v' : Workshop := ⟨5, 4, y.2, #[]⟩
  have built : Workshop.ofForms [] = .ok {} := rfl
  have hform : ∀ f ∈ sampleNestedForm.subforms, ∀ place, f ≠ .take place := by
    simp [sampleNestedForm, Form.designation, Form.subforms, Form.subformsGroups, Form.subformsAll]
  have run : sampleNestedForm.eval.run {} = .ok (.node n, v') := by
    conv => lhs; cbv
    rfl
  let s : Locals := ⟨.ofRoot n, LocalSymbol.factory v'.names, 0, none⟩
  let p : Progress SymbolId LocalSymbol := ⟨#[], 0⟩
  have found : (s.find (some n)).run p = .ok () (p.after s.factory
      [.pattern 0 none ⟨0, ⟨0, 1⟩, x.1⟩ ⟨0, 1⟩, .pattern 0 none ⟨3, ⟨2, 3⟩, y.1⟩ ⟨0, 3⟩]) := by
    rw [find, visit_eq_reached s (Form.grammatical_of_run built run)]
    rfl
  exact ⟨x.1, y.1, v', _, _, run, found, rfl, rfl,
    find_ascending built hform run (.refl _) rfl p⟩

end Search

end InlineLocals
