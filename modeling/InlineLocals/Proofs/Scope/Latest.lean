import InlineLocals.Scope.Basic
import Mathlib.Data.List.Basic

/-!
# Scope — Latest

The symbol that a name has in a scope.  `Scope.Latest` says it of the list of symbols: it is one
with the name, and no later one has the name.  The scope itself finds it by way of a number: the
table has the number of the symbol declared last under each name (`get?_locals_declareAll`), and
the search from the end of the list stops at the last symbol with this number.  The two agree when
no two names share a number (`get?_eq_some_iff_latest`).
-/

namespace InlineLocals

namespace LocalSymbol

/-- The last symbol of the list with the name. -/
def latest? (xs : List LocalSymbol) (name : Name) : Option LocalSymbol :=
  xs.reverse.find? fun x => x.name == name

/-- A later symbol of the name goes before an earlier one. -/
theorem latest?_cons (x : LocalSymbol) (xs : List LocalSymbol) (name : Name) :
    latest? (x :: xs) name = (latest? xs name).or (if x.name = name then some x else none) := by
  rw [latest?, List.reverse_cons, List.find?_append, List.find?_singleton]
  simp [latest?]

/-- A change that keeps the names changes the last symbol of a name. -/
theorem latest?_map {f : LocalSymbol → LocalSymbol} (hf : ∀ x, (f x).name = x.name)
    (xs : List LocalSymbol) (name : Name) : latest? (xs.map f) name = (latest? xs name).map f := by
  have hname : ((fun x => x.name == name) ∘ f) = fun x : LocalSymbol => x.name == name := by
    funext x
    simp [hf]
  rw [latest?, latest?, ← List.map_reverse, List.find?_map, hname]

/-- The last symbol of a name is one after which the name does not come again. -/
theorem latest?_eq_some_iff {xs : List LocalSymbol} {name : Name} {x : LocalSymbol} :
    latest? xs name = some x ↔ ∃ before after, xs = before ++ x :: after ∧ x.name = name ∧
      ∀ y ∈ after, y.name ≠ name := by
  rw [latest?, List.find?_eq_some_iff_append]
  constructor
  · rintro ⟨hx, after, before, hxs, ha⟩
    refine ⟨before.reverse, after.reverse, ?_, by simpa using hx, fun y hy => ?_⟩
    · have h := congrArg List.reverse hxs
      simpa using h
    · simpa using ha y (List.mem_reverse.mp hy)
  · rintro ⟨before, after, rfl, hx, ha⟩
    refine ⟨by simpa using hx, after.reverse, before.reverse, by simp, fun y hy => ?_⟩
    simpa using ha y (List.mem_reverse.mp hy)

theorem latest?_eq_none_iff {xs : List LocalSymbol} {name : Name} :
    latest? xs name = none ↔ ∀ x ∈ xs, x.name ≠ name := by
  simp [latest?]

end LocalSymbol

open LocalSymbol (latest? latest?_cons latest?_eq_some_iff latest?_eq_none_iff)

namespace Scope

/-- The symbol is the last one of the name that is declared in the scope. -/
def Latest (s : Scope) (name : Name) (x : LocalSymbol) : Prop :=
  ∃ before after, s.symbols.toList = before ++ x :: after ∧ x.name = name ∧
    ∀ y ∈ after, y.name ≠ name

theorem latest_iff {s : Scope} {name : Name} {x : LocalSymbol} :
    s.Latest name x ↔ latest? s.symbols.toList name = some x :=
  latest?_eq_some_iff.symm

/-- A name has the number of the last of the new symbols with the name, or else the one it had. -/
theorem get?_locals_declareAll (s : Scope) (xs : List LocalSymbol) (name : Name) :
    (s.declareAll xs).locals.get? name =
      ((latest? xs name).map (·.id)).or (s.locals.get? name) := by
  rw [declareAll]
  induction xs generalizing s with
  | nil => rfl
  | cons x xs ih =>
      rw [List.foldl_cons, ih, latest?_cons, declare, SymbolTable.get?_set]
      cases latest? xs name with
      | some y => rfl
      | none => by_cases hx : x.name = name <;> simp [hx]

/-- What the table of a scope says, when all its symbols were declared in it. -/
structure Tabled (s : Scope) : Prop where
  get?_locals : ∀ name, s.locals.get? name = (latest? s.symbols.toList name).map (·.id)

/-- The table has the number of the last symbol of each name. -/
theorem Tabled.get?_locals_eq_some_iff {s : Scope} (h : s.Tabled) {name : Name} {id : SymbolId} :
    s.locals.get? name = some id ↔ ∃ x, s.Latest name x ∧ x.id = id := by
  simp only [h.get?_locals, Option.map_eq_some_iff, latest_iff]

/-- The table has the names of the symbols. -/
theorem Tabled.contains_iff {s : Scope} (h : s.Tabled) {name : Name} :
    s.locals.contains name = true ↔ ∃ x ∈ s.symbols, x.name = name := by
  rw [SymbolTable.contains_iff, ← Option.ne_none_iff_exists', h.get?_locals, ne_eq,
    Option.map_eq_none_iff, latest?_eq_none_iff]
  simp

/-- The search by number finds the last symbol of the name, when no two names share a number. -/
theorem Tabled.get?_eq_some_iff_latest {s : Scope} (h : s.Tabled)
    (hid : ∀ x ∈ s.symbols, ∀ y ∈ s.symbols, x.id = y.id → x.name = y.name) {name : Name}
    {x : LocalSymbol} : s.get? name = some x ↔ s.Latest name x := by
  -- The search by number goes from the end, where no symbol of the number has another name.
  have find {y : LocalSymbol} (hy : s.Latest name y) :
      s.symbols.toList.reverse.find? (fun z => z.id == y.id) = some y := by
    obtain ⟨before, after, hs, hn, ha⟩ := hy
    rw [List.find?_eq_some_iff_append]
    refine ⟨by simp, after.reverse, before.reverse, by simp [hs], fun z hz => ?_⟩
    have hz := List.mem_reverse.mp hz
    have hmem : z ∈ s.symbols := by rw [← Array.mem_toList_iff, hs]; simp [hz]
    have hmem' : y ∈ s.symbols := by rw [← Array.mem_toList_iff, hs]; simp
    have hne : z.id ≠ y.id := fun e => ha z hz ((hid z hmem y hmem' e).trans hn)
    simpa using hne
  constructor
  · intro hg
    obtain ⟨id, hl, hf⟩ := Option.bind_eq_some_iff.mp hg
    obtain ⟨y, hy, rfl⟩ := h.get?_locals_eq_some_iff.mp hl
    rw [find hy] at hf
    cases hf
    exact hy
  · intro hx
    have hl := h.get?_locals_eq_some_iff.mpr ⟨x, hx, rfl⟩
    exact Option.bind_eq_some_iff.mpr ⟨x.id, hl, find hx⟩

end Scope

end InlineLocals
