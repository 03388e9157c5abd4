import InlineLocals.Proofs.Scope.Environment
import Mathlib.Data.List.Chain

/-!
# Scope — Walking

Whether looking up a name ends.  The walk visits scopes from parent to parent (`Scopes.Ends`), and
nothing keeps a scope from being its own parent or that of a scope made before it.  A walk that
comes back to a scope which it has passed goes in circles from there (`Scopes.Returns`), and these
are the only walks without an end: one that has passed as many scopes as there are has passed one of
them twice (`Scopes.ends_or_returns`).  So the limit of `Scopes.walk` cuts no walk short that would
have ended.

After any list of edits the scopes have the parents that the edits name (`parents_edited`).  When
each of them is a scope made before, or none that is ever made, every walk ends
(`ScopeBuilder.lookup_ends`); a scope that is made its own parent shows that some do not
(`ScopeBuilder.not_forall_ends`).
-/

namespace InlineLocals

namespace Scopes

/-! ### The walk -/

/-- The walk for a name from `s` visits the scopes of the list, one after the other, and stops with
the result: at a scope that declares the name, at one without a parent, or where there is no
scope. -/
inductive Ends (ss : Scopes) (name : Name) : ScopeId → List ScopeId → Resolution → Prop where
  | declared {s : ScopeId} {scope : Scope} {x : LocalSymbol} (hs : ss.get? s = some scope)
      (hx : scope.get? name = some x) : Ends ss name s [s] (.bound x)
  | outermost {s : ScopeId} {scope : Scope} (hs : ss.get? s = some scope)
      (hx : scope.get? name = none) (hp : scope.parent = none) : Ends ss name s [s] .unbound
  | missing {s : ScopeId} (hs : ss.get? s = none) : Ends ss name s [] .unbound
  | outward {s p : ScopeId} {scope : Scope} {visited : List ScopeId} {r : Resolution}
      (hs : ss.get? s = some scope) (hx : scope.get? name = none) (hp : scope.parent = some p)
      (way : Ends ss name p visited r) : Ends ss name s (s :: visited) r

/-- The walk for a name goes on from a scope to its parent. -/
def Passes (ss : Scopes) (name : Name) (s p : ScopeId) : Prop :=
  ∃ scope, ss.get? s = some scope ∧ scope.get? name = none ∧ scope.parent = some p

/-- The walk for a name from `s` comes to a scope, passes it and comes to it again. -/
def Returns (ss : Scopes) (name : Name) (s : ScopeId) : Prop :=
  ∃ t, Relation.ReflTransGen (ss.Passes name) s t ∧ Relation.TransGen (ss.Passes name) t t

section

variable {ss : Scopes} {name : Name} {s p : ScopeId}

theorem Passes.unique {q : ScopeId} (h : ss.Passes name s p) (h' : ss.Passes name s q) :
    p = q := by
  obtain ⟨scope, hs, -, hp⟩ := h
  obtain ⟨other, hs', -, hq⟩ := h'
  cases hs.symm.trans hs'
  exact Option.some.inj (hp.symm.trans hq)

theorem Passes.lt_size (h : ss.Passes name s p) : s < ss.size := by
  obtain ⟨scope, hs, -⟩ := h
  exact (Array.getElem?_eq_some_iff.mp hs).1

/-- A walk that returns has a scope to pass first. -/
theorem Returns.exists_passes (h : ss.Returns name s) : ∃ p, ss.Passes name s p := by
  obtain ⟨t, way, loop⟩ := h
  rcases way.cases_head with rfl | ⟨p, hp, -⟩
  · obtain ⟨p, hp, -⟩ := Relation.TransGen.head'_iff.mp loop
    exact ⟨p, hp⟩
  · exact ⟨p, hp⟩

/-- From the next scope on a walk that returns still does. -/
theorem Returns.of_passes (h : ss.Returns name s) (hp : ss.Passes name s p) :
    ss.Returns name p := by
  obtain ⟨t, way, loop⟩ := h
  rcases way.cases_head with rfl | ⟨q, hq, way⟩
  · obtain ⟨q, hq, back⟩ := Relation.TransGen.head'_iff.mp loop
    cases hp.unique hq
    exact ⟨p, .refl, Relation.TransGen.tail' back hp⟩
  · cases hp.unique hq
    exact ⟨t, way, loop⟩

theorem Ends.not_returns {visited : List ScopeId} {r : Resolution}
    (h : ss.Ends name s visited r) : ¬ ss.Returns name s := by
  induction h with
  | declared hs hx =>
      intro hr
      obtain ⟨p, scope, hs', hx', -⟩ := hr.exists_passes
      cases hs.symm.trans hs'
      rw [hx] at hx'
      cases hx'
  | outermost hs _ hp =>
      intro hr
      obtain ⟨p, scope, hs', -, hp'⟩ := hr.exists_passes
      cases hs.symm.trans hs'
      rw [hp] at hp'
      cases hp'
  | missing hs =>
      intro hr
      obtain ⟨p, scope, hs', -⟩ := hr.exists_passes
      cases hs.symm.trans hs'
  -- A way that returns still does so from the parent, where the walk would end.
  | outward hs hx hp _ ih => exact fun hr => ih (hr.of_passes ⟨_, hs, hx, hp⟩)

/-- A walk ends in one way only. -/
theorem Ends.unique {visited visited' : List ScopeId} {r r' : Resolution}
    (h : ss.Ends name s visited r) (h' : ss.Ends name s visited' r') :
    visited = visited' ∧ r = r' := by
  induction h generalizing visited' with
  | declared hs hx => cases h' <;> simp_all
  | outermost hs hx hp => cases h' <;> simp_all
  | missing hs => cases h' <;> simp_all
  | outward hs hx hp _ ih =>
      cases h' with
      | outward hs' hx' hp' way =>
          cases hs.symm.trans hs'
          cases hp.symm.trans hp'
          obtain ⟨rfl, hr⟩ := ih way
          exact ⟨rfl, hr⟩
      | declared | outermost | missing => simp_all

/-! ### The limit -/

/-- Either the limited walk stops by itself, or it has passed as many scopes as the limit allows and
come to one more. -/
theorem walk_ends_or_chain (ss : Scopes) (name : Name) : ∀ (limit : Nat) (s : ScopeId),
    (∃ visited, ss.Ends name s visited (ss.walk name limit (some s)) ∧
      visited.length ≤ limit) ∨
    (ss.walk name limit (some s) = .endless ∧ ∃ way : List ScopeId, way.length = limit ∧
      (s :: way).IsChain (ss.Passes name) ∧ ∀ t ∈ s :: way, t < ss.size)
  | 0, s => by
      cases hs : ss.get? s with
      | none => exact .inl ⟨[], by simpa [walk, hs] using .missing hs, Nat.le_refl _⟩
      | some scope =>
          have hlt : s < ss.size := (Array.getElem?_eq_some_iff.mp hs).1
          exact .inr ⟨by simp [walk, hs], [], rfl, .singleton s, by simpa using hlt⟩
  | limit + 1, s => by
      cases hs : ss.get? s with
      | none => exact .inl ⟨[], by simpa [walk, hs] using .missing hs, Nat.zero_le _⟩
      | some scope =>
          have hlt : s < ss.size := (Array.getElem?_eq_some_iff.mp hs).1
          cases hx : scope.get? name with
          | some x =>
              exact .inl ⟨[s], by simpa [walk, hs, hx] using .declared hs hx, by simp⟩
          | none =>
              cases hp : scope.parent with
              | none =>
                  exact .inl ⟨[s], by simpa [walk, hs, hx, hp] using .outermost hs hx hp,
                    by simp⟩
              | some p =>
                  -- One step outward, and the rest of the limit for the walk from the parent.
                  have hwalk : ss.walk name (limit + 1) (some s) =
                      ss.walk name limit (some p) := by simp [walk, hs, hx, hp]
                  rw [hwalk]
                  rcases walk_ends_or_chain ss name limit p with
                    ⟨visited, h, hl⟩ | ⟨h, way, hl, hway, hin⟩
                  · exact .inl ⟨s :: visited, .outward hs hx hp h, Nat.succ_le_succ hl⟩
                  · refine .inr ⟨h, p :: way, by rw [List.length_cons, hl], ?_, ?_⟩
                    · exact .cons_cons ⟨scope, hs, hx, hp⟩ hway
                    · exact List.forall_mem_cons.mpr ⟨hlt, hin⟩

/-- Where no scope is come to twice, a way passes each scope once. -/
theorem nodup_of_isChain {way : List ScopeId} (h : (s :: way).IsChain (ss.Passes name))
    (hr : ¬ ss.Returns name s) : (s :: way).Nodup := by
  have hpairs : (s :: way).Pairwise (Relation.TransGen (ss.Passes name)) :=
    (h.imp fun _ _ => .single).pairwise
  have hreach : ∀ t ∈ s :: way, Relation.ReflTransGen (ss.Passes name) s t :=
    List.forall_mem_cons.mpr
      ⟨.refl, fun t ht => (List.rel_of_pairwise_cons hpairs ht).to_reflTransGen⟩
  refine hpairs.imp_of_mem ?_
  rintro t u ht - htu rfl
  exact hr ⟨t, hreach t ht, htu⟩

/-- **A walk ends or returns.**  One that ends visits no more scopes than there are, and its result
is that of the limited walk. -/
theorem ends_or_returns (ss : Scopes) (name : Name) (s : ScopeId) :
    (∃ visited, ss.Ends name s visited (ss.resolve s name) ∧ visited.length ≤ ss.size) ∨
      (ss.resolve s name = .endless ∧ ss.Returns name s) := by
  rcases ss.walk_ends_or_chain name ss.size s with h | ⟨h, way, hl, hway, hin⟩
  · exact .inl h
  · refine .inr ⟨h, ?_⟩
    by_contra hr
    have hsub : s :: way ⊆ List.range ss.size := fun t ht => List.mem_range.mpr (hin t ht)
    have hle := (List.subperm_of_subset (nodup_of_isChain hway hr) hsub).length_le
    rw [List.length_cons, hl, List.length_range] at hle
    exact absurd hle (Nat.not_succ_le_self _)

theorem returns_iff_forall_not_ends :
    ss.Returns name s ↔ ∀ visited r, ¬ ss.Ends name s visited r := by
  refine ⟨fun hr visited r h => h.not_returns hr, fun h => ?_⟩
  rcases ss.ends_or_returns name s with ⟨visited, hends, -⟩ | ⟨-, hr⟩
  · exact absurd hends (h visited _)
  · exact hr

theorem Ends.resolve_eq {visited : List ScopeId} {r : Resolution}
    (h : ss.Ends name s visited r) : ss.resolve s name = r ∧ visited.length ≤ ss.size := by
  rcases ss.ends_or_returns name s with ⟨visited', h', hl⟩ | ⟨-, hr⟩
  · obtain ⟨rfl, rfl⟩ := h.unique h'
    exact ⟨rfl, hl⟩
  · exact absurd hr h.not_returns

/-! ### Parents that are made first -/

/-- The parents of the scopes, in the order of their numbers. -/
def parents (ss : Scopes) : List (Option ScopeId) := ss.scopes.toList.map (·.parent)

/-- When a parent has a smaller number or is none of the scopes, no walk returns. -/
theorem not_returns_of_parents (name : Name) (s : ScopeId)
    (h : ∀ k p, ss.parents[k]? = some (some p) → p < k ∨ ss.size ≤ p) :
    ¬ ss.Returns name s := by
  have step {a b : ScopeId} (hab : ss.Passes name a b) (hb : b < ss.size) : b < a := by
    obtain ⟨scope, ha, -, hp⟩ := hab
    have ha : ss.scopes.toList[a]? = some scope := by rw [Array.getElem?_toList]; exact ha
    have hpar : ss.parents[a]? = some (some b) := by rw [parents, List.getElem?_map, ha, ← hp]; rfl
    exact (h a b hpar).resolve_right (Nat.not_le_of_lt hb)
  have down {a b : ScopeId} (hab : Relation.TransGen (ss.Passes name) a b) (hb : b < ss.size) :
      b < a := by
    induction hab with
    | single hab => exact step hab hb
    | tail _ hbc ih => exact Nat.lt_trans (step hbc hb) (ih hbc.lt_size)
  rintro ⟨t, -, loop⟩
  obtain ⟨p, hp, -⟩ := Relation.TransGen.head'_iff.mp loop
  exact absurd (down loop hp.lt_size) (Nat.lt_irrefl t)

theorem length_parents (ss : Scopes) : ss.parents.length = ss.size := by
  simp [parents, size]

theorem parents_push (ss : Scopes) (parent : Option ScopeId) :
    (ss.push parent).2.parents = ss.parents ++ [parent] := by
  simp [parents, push, Scope.empty]

theorem parents_declareAll (ss : Scopes) (id : ScopeId) (symbols : List LocalSymbol) :
    (ss.declareAll id symbols).parents = ss.parents := by
  refine List.ext_getElem? fun k => ?_
  rw [parents, parents, List.getElem?_map, List.getElem?_map, Array.getElem?_toList,
    Array.getElem?_toList]
  refine (congrArg _ (ss.get?_declareAll id k symbols)).trans ?_
  split
  · rw [Option.map_map]
    exact congrFun (congrArg _ (funext fun _ => Scope.parent_declareAll _ _)) _
  · rfl

end

end Scopes

namespace ScopeBuilder

/-! ### Edits -/

/-- What is done to scopes: a scope is added or a symbol declared by itself, or the scope of a
container is built. -/
inductive Edit where
  | step (a : Scopes.Step)
  | build (tree : Tree) (names : Names) (job : Job)

def edit (b : ScopeBuilder) : Edit → ScopeBuilder
  | .step a => { b with scopes := b.scopes.step a }
  | .build tree names job => (b.build tree names job.parent job.container).2

/-- The builder after a list of edits, whether the builds among them succeed or not. -/
def edited (edits : List Edit) : ScopeBuilder := edits.foldl edit {}

/-- The parent of the scope that the edit makes, if it makes one. -/
def Edit.parent? : Edit → Option (Option ScopeId)
  | .step (.push parent) => some parent
  | .step (.declare _ _) => none
  | .build _ _ job => some job.parent

theorem parents_edit (b : ScopeBuilder) (e : Edit) :
    (b.edit e).scopes.parents = b.scopes.parents ++ e.parent?.toList := by
  cases e with
  | step a =>
      cases a with
      | push parent => exact b.scopes.parents_push parent
      | declare scope symbol =>
          exact (b.scopes.parents_declareAll scope [symbol]).trans (List.append_nil _).symm
  | build tree names job =>
      obtain ⟨xs, r, h⟩ := exists_adds (Search.inScope tree names b.scopes.size job.parent) rfl
        job.container
      have hparent := Scope.parent_declareAll (.empty b.scopes.size job.parent)
        (LocalSymbol.number b.nextSymbol (Scope.kept xs r))
      rw [edit, b.build_eq h]
      simp only [Scopes.parents, Array.toList_push, List.map_append, List.map_cons, List.map_nil]
      exact congrArg (_ ++ [·]) hparent

/-- **Scopes keep the parents that they were made with.** -/
theorem parents_edited (edits : List Edit) :
    (edited edits).scopes.parents = edits.filterMap Edit.parent? := by
  have hfrom (b : ScopeBuilder) : (edits.foldl edit b).scopes.parents =
      b.scopes.parents ++ edits.filterMap Edit.parent? := by
    induction edits generalizing b with
    | nil => simp
    | cons e edits ih =>
        rw [List.foldl_cons, ih, parents_edit, List.filterMap_cons, List.append_assoc]
        cases e.parent? <;> rfl
  exact hfrom {}

/-- **Looking up a name ends, unless the walk comes back.**  After any list of edits the walk from a
scope either visits no more scopes than there are and stops, or it comes to a scope again that it
has passed, and then it has no end.  It does not come back when the parents are scopes that were
made before, or none that is ever made. -/
theorem lookup_ends (edits : List Edit) (s : ScopeId) (name : Name) :
    let ss := (edited edits).scopes
    let parents := edits.filterMap Edit.parent?
    (ss.Returns name s ∨
      ∃ visited, ss.Ends name s visited (ss.resolve s name) ∧ visited.length ≤ ss.size) ∧
    (ss.Returns name s → ∀ visited r, ¬ ss.Ends name s visited r) ∧
    (∀ visited r, ss.Ends name s visited r →
      ss.lookup s name = r.symbol? ∧ visited.length ≤ ss.size) ∧
    ((∀ k p, parents[k]? = some (some p) → p < k ∨ parents.length ≤ p) →
      ¬ ss.Returns name s) := by
  intro ss parents
  refine ⟨?_, Scopes.returns_iff_forall_not_ends.mp, fun visited r h => ?_, fun h => ?_⟩
  · rcases ss.ends_or_returns name s with h | ⟨-, h⟩
    · exact .inr h
    · exact .inl h
  · exact ⟨congrArg Resolution.symbol? h.resolve_eq.1, h.resolve_eq.2⟩
  · have hparents : ss.parents = parents := parents_edited edits
    have hsize : parents.length = ss.size := by rw [← hparents, Scopes.length_parents]
    -- Going outward the numbers get smaller, or the parent is no scope and the walk stops.
    refine ss.not_returns_of_parents name s fun k p hk => ?_
    rw [hparents] at hk
    rw [← hsize]
    exact h k p hk

/-- Three scopes: one that has no parent, its child, and one below a scope that is never made. -/
def sampleEdits : List Edit := [.step (.push none), .step (.push (some 0)), .step (.push (some 7))]

/-- The walk from the child ends. -/
theorem lookup_ends_sampleEdits :
    let parents := sampleEdits.filterMap Edit.parent?
    (∀ k p, parents[k]? = some (some p) → p < k ∨ parents.length ≤ p) ∧
      ¬ (edited sampleEdits).scopes.Returns ⟨0⟩ 1 := by
  intro parents
  have h : ∀ k p, parents[k]? = some (some p) → p < k ∨ parents.length ≤ p
    | 0, _, h => by cases h
    | 1, _, h => by cases h; decide
    | 2, _, h => by cases h; decide
    | _ + 3, _, h => by cases h
  exact ⟨h, (lookup_ends sampleEdits 1 ⟨0⟩).2.2.2 h⟩

/-- A scope that is made its own parent: the walk from it has no end. -/
theorem not_forall_ends : ¬ ∀ (edits : List Edit) (s : ScopeId) (name : Name),
    ∃ visited r, (edited edits).scopes.Ends name s visited r ∧
      visited.length ≤ (edited edits).scopes.size := by
  intro h
  obtain ⟨visited, r, hends, -⟩ := h [.step (.push (some 0))] 0 ⟨0⟩
  have hself : (edited [.step (.push (some 0))]).scopes.Passes ⟨0⟩ 0 0 :=
    ⟨.empty 0 (some 0), rfl, by simp [Scope.get?, Scope.empty, SymbolTable.get?_empty], rfl⟩
  exact hends.not_returns ⟨0, .refl, .single hself⟩

end ScopeBuilder

end InlineLocals
