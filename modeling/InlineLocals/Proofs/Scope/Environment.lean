import InlineLocals.Proofs.Scope.Invariant

/-!
# Scope — Environment

What scopes stand for.  An environment is a row of frames; a frame names its parent and maps each
name to the symbol declared last under it.  There are no numbers of symbols in it and no tables.

A history of new scopes and declarations makes scopes, and it makes an environment.  After every
lawful history the two show the same (`Mirrored`): one step keeps that (`Mirrored.push`,
`Mirrored.declare`), so it holds of the whole run (`Lawful.mirrored`).  A scope then holds the
symbols that the history declares in it and gives a name the symbol that its frame gives it
(`Mirrored.get?_eq`).
-/

namespace InlineLocals

open LocalSymbol (latest?)

/-! ### Histories -/

namespace Scopes

/-- What is done to scopes. -/
inductive Step where
  | push (parent : Option ScopeId)
  | declare (scope : ScopeId) (symbol : LocalSymbol)

/-- The operation on the scopes. -/
def step (ss : Scopes) : Step → Scopes
  | .push parent => (ss.push parent).2
  | .declare scope symbol => ss.declare scope symbol

/-- The scopes after a history that starts without any. -/
def after (history : List Step) : Scopes := history.foldl step .empty

theorem after_append (history : List Step) (a : Step) :
    after (history ++ [a]) = (after history).step a :=
  List.foldl_append

/-- The symbols that a history declares in a scope, in order. -/
def declared (scope : ScopeId) (history : List Step) : List LocalSymbol :=
  history.filterMap fun
    | .push _ => none
    | .declare other symbol => if other = scope then some symbol else none

theorem declared_push (k : ScopeId) (history : List Step) (parent : Option ScopeId) :
    declared k (history ++ [.push parent]) = declared k history := by
  simp [declared]

/-- A declaration adds to the list of its own scope. -/
theorem declared_declare (k scope : ScopeId) (history : List Step) (x : LocalSymbol) :
    declared k (history ++ [.declare scope x]) =
      if scope = k then declared k history ++ [x] else declared k history := by
  by_cases h : scope = k <;> simp [declared, h]

/-- Every scope that is named was made before, as a parent or to declare a symbol in, and two
symbols of one scope with the same number have the same name. -/
inductive Lawful : List Step → Prop
  | nil : Lawful []
  | push {history : List Step} {parent : Option ScopeId} (lawful : Lawful history)
      (made : ∀ p, parent = some p → p < (after history).size) :
      Lawful (history ++ [.push parent])
  | declare {history : List Step} {scope : ScopeId} {symbol : LocalSymbol}
      (lawful : Lawful history) (made : scope < (after history).size)
      (named : ∀ x ∈ declared scope history, x.id = symbol.id → x.name = symbol.name) :
      Lawful (history ++ [.declare scope symbol])

end Scopes

/-! ### Environments -/

/-- A scope as a map. -/
structure Frame where
  parent : Option ScopeId
  symbol? : Name → Option LocalSymbol

namespace Frame

def empty (parent : Option ScopeId) : Frame := { parent, symbol? := fun _ => none }

/-- A symbol takes the place of the one that had its name. -/
def declare (f : Frame) (x : LocalSymbol) : Frame :=
  { f with symbol? := fun name => if name = x.name then some x else f.symbol? name }

/-- The frame does not bind the name. -/
def Unbound (name : Name) (f : Frame) : Prop := f.symbol? name = none

end Frame

/-- Frames, each at the place of its number. -/
structure Environment where
  frames : Array Frame

namespace Environment

def frame? (env : Environment) (k : ScopeId) : Option Frame := env.frames[k]?

/-- The same operation on the environment. -/
def step (env : Environment) : Scopes.Step → Environment
  | .push parent => ⟨env.frames.push (.empty parent)⟩
  | .declare scope symbol => ⟨env.frames.modify scope (·.declare symbol)⟩

/-- The environment after a history. -/
def after (history : List Scopes.Step) : Environment := history.foldl step ⟨#[]⟩

theorem after_append (history : List Scopes.Step) (a : Scopes.Step) :
    after (history ++ [a]) = (after history).step a :=
  List.foldl_append

/-- A new frame comes last, and the others stay. -/
theorem frame?_after_push (history : List Scopes.Step) (parent : Option ScopeId) (k : ScopeId) :
    (after (history ++ [.push parent])).frame? k =
      if k = (after history).frames.size then some (.empty parent)
      else (after history).frame? k := by
  rw [after_append]
  exact Array.getElem?_push

/-- A declaration changes the frame of its own scope, if there is one. -/
theorem frame?_after_declare (history : List Scopes.Step) (scope k : ScopeId) (x : LocalSymbol) :
    (after (history ++ [.declare scope x])).frame? k =
      if scope = k then ((after history).frame? k).map (·.declare x)
      else (after history).frame? k := by
  rw [after_append]
  exact Array.getElem?_modify

end Environment

/-! ### What a history makes -/

namespace LocalSymbol

/-- The last symbol is the one that its name has. -/
theorem latest?_append_singleton (xs : List LocalSymbol) (x : LocalSymbol) (name : Name) :
    latest? (xs ++ [x]) name = if name = x.name then some x else latest? xs name := by
  rw [latest?, List.reverse_append, List.reverse_singleton, List.singleton_append, List.find?_cons]
  by_cases h : x.name = name
  · simp [h]
  · rw [beq_eq_false_iff_ne.mpr h, if_neg (Ne.symm h)]
    rfl

end LocalSymbol

namespace Scope

theorem holding_append (k : ScopeId) (parent : Option ScopeId) (xs : List LocalSymbol)
    (x : LocalSymbol) :
    holding k parent (xs ++ [x]) = (holding k parent xs).declareAll [x] :=
  List.foldl_append

/-- Where a number has one name, a name means the symbol declared last under it. -/
theorem get?_holding {k : ScopeId} {parent : Option ScopeId} {xs : List LocalSymbol}
    (h : ∀ x ∈ xs, ∀ y ∈ xs, x.id = y.id → x.name = y.name) (name : Name) :
    (holding k parent xs).get? name = latest? xs name := by
  refine Option.ext fun x => ?_
  have hid : ∀ x ∈ (holding k parent xs).symbols, ∀ y ∈ (holding k parent xs).symbols,
      x.id = y.id → x.name = y.name :=
    fun x hx y hy => h x (mem_symbols_holding.mp hx) y (mem_symbols_holding.mp hy)
  rw [(tabled_holding k parent xs).get?_eq_some_iff_latest hid, latest_iff, symbols_holding]

end Scope

namespace Scopes

/-- The scopes and the environment that a history makes show the same. -/
structure Mirrored (history : List Step) : Prop where
  size : (Environment.after history).frames.size = (after history).size
  /-- A scope holds what is declared in it. -/
  get? : ∀ k, (after history).get? k = ((Environment.after history).frame? k).map fun f =>
    .holding k f.parent (declared k history)
  /-- A frame binds a name to the symbol declared last under it. -/
  symbol? : ∀ k f, (Environment.after history).frame? k = some f →
    ∀ name, f.symbol? name = latest? (declared k history) name
  parent_lt : ∀ k f p, (Environment.after history).frame? k = some f → f.parent = some p → p < k
  /-- Nothing is declared in a scope before there is one. -/
  declared_eq_nil : ∀ k, (after history).size ≤ k → declared k history = []
  name_eq : ∀ k, ∀ x ∈ declared k history, ∀ y ∈ declared k history, x.id = y.id →
    x.name = y.name

namespace Mirrored

variable {history : List Step}

/-- A new scope is empty, and so is its frame. -/
theorem push (h : Mirrored history) {parent : Option ScopeId}
    (made : ∀ p, parent = some p → p < (after history).size) :
    Mirrored (history ++ [.push parent]) := by
  have hsize : (after (history ++ [.push parent])).size = (after history).size + 1 := by
    rw [after_append]
    exact size_push _ _
  have hframe (k : ScopeId) := Environment.frame?_after_push history parent k
  simp only [h.size] at hframe
  -- The history has declared nothing in the scope that is about to come.
  have hnew : declared (after history).size history = [] := h.declared_eq_nil _ (Nat.le_refl _)
  constructor
  case size =>
    rw [hsize, Environment.after_append, ← h.size]
    exact Array.size_push _
  case get? =>
    intro k
    rw [after_append, hframe, declared_push]
    refine (get?_push _ _ _).trans ?_
    by_cases hk : k = (after history).size
    · rw [if_pos hk, if_pos hk, hk, hnew]
      rfl
    · rw [if_neg hk, if_neg hk, h.get?]
  case symbol? =>
    intro k f hf name
    rw [hframe] at hf
    rw [declared_push]
    split at hf
    · next hk =>
      cases hf
      rw [hk, hnew]
      rfl
    · exact h.symbol? k f hf name
  case parent_lt =>
    intro k f p hf hp
    rw [hframe] at hf
    split at hf
    · next hk =>
      cases hf
      exact hk ▸ made p hp
    · exact h.parent_lt k f p hf hp
  case declared_eq_nil =>
    intro k hk
    rw [hsize] at hk
    rw [declared_push]
    exact h.declared_eq_nil k (Nat.le_of_succ_le hk)
  case name_eq =>
    intro k
    rw [declared_push]
    exact h.name_eq k

/-- A declaration goes to one scope and to its frame. -/
theorem declare (h : Mirrored history) {scope : ScopeId} {symbol : LocalSymbol}
    (made : scope < (after history).size)
    (named : ∀ x ∈ declared scope history, x.id = symbol.id → x.name = symbol.name) :
    Mirrored (history ++ [.declare scope symbol]) := by
  have hsize : (after (history ++ [.declare scope symbol])).size = (after history).size := by
    rw [after_append]
    exact size_declareAll _ _ _
  have hframe (k : ScopeId) := Environment.frame?_after_declare history scope k symbol
  constructor
  case size =>
    rw [hsize, Environment.after_append, ← h.size]
    exact Array.size_modify
  case get? =>
    intro k
    rw [after_append, hframe, declared_declare]
    refine (get?_declareAll _ _ _ _).trans ?_
    rw [h.get?]
    by_cases hk : scope = k
    · rw [if_pos hk, if_pos hk, if_pos hk, Option.map_map, Option.map_map]
      simp only [Scope.holding_append]
      rfl
    · rw [if_neg hk, if_neg hk, if_neg hk]
  case symbol? =>
    intro k f hf name
    rw [hframe] at hf
    rw [declared_declare]
    split at hf
    · next hk =>
      obtain ⟨old, hold, rfl⟩ := Option.map_eq_some_iff.mp hf
      rw [if_pos hk, LocalSymbol.latest?_append_singleton, ← h.symbol? k old hold]
      rfl
    · next hk =>
      rw [if_neg hk]
      exact h.symbol? k f hf name
  case parent_lt =>
    intro k f p hf hp
    rw [hframe] at hf
    split at hf
    · obtain ⟨old, hold, rfl⟩ := Option.map_eq_some_iff.mp hf
      exact h.parent_lt k old p hold hp
    · exact h.parent_lt k f p hf hp
  case declared_eq_nil =>
    intro k hk
    rw [hsize] at hk
    have hne : scope ≠ k := Nat.ne_of_lt (Nat.lt_of_lt_of_le made hk)
    rw [declared_declare, if_neg hne]
    exact h.declared_eq_nil k hk
  case name_eq =>
    intro k x hx y hy hid
    rw [declared_declare] at hx hy
    split at hx
    · next hk =>
      subst hk
      rw [if_pos rfl] at hy
      -- Of two declarations in the scope, each is an old one or the new one.
      rcases List.mem_append.mp hx with hx | hx <;> rcases List.mem_append.mp hy with hy | hy
      · exact h.name_eq scope x hx y hy hid
      · cases List.mem_singleton.mp hy
        exact named x hx hid
      · cases List.mem_singleton.mp hx
        exact (named y hy hid.symm).symm
      · rw [List.mem_singleton.mp hx, List.mem_singleton.mp hy]
    · next hk =>
      rw [if_neg hk] at hy
      exact h.name_eq k x hx y hy hid

/-- What a scope says, its frame says. -/
theorem get?_eq (h : Mirrored history) {k : ScopeId} {f : Frame}
    (hf : (Environment.after history).frame? k = some f) :
    ∃ s, (after history).get? k = some s ∧ s.parent = f.parent ∧
      ∀ name, s.get? name = f.symbol? name := by
  refine ⟨.holding k f.parent (declared k history), by rw [h.get?, hf]; rfl,
    Scope.parent_declareAll _ _, fun name => ?_⟩
  rw [Scope.get?_holding (h.name_eq k), h.symbol? k f hf]

end Mirrored

/-- **Scopes mirror the environment** after every lawful history. -/
theorem Lawful.mirrored {history : List Step} (h : Lawful history) : Mirrored history := by
  induction h with
  | nil => exact ⟨rfl, fun _ => rfl, nofun, nofun, fun _ _ => rfl, nofun⟩
  | push _ made ih => exact ih.push made
  | declare _ made named ih => exact ih.declare made named

end Scopes

end InlineLocals
