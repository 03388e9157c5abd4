import InlineLocals.Text.Names

/-!
# Text — NamePool

Tables of names that are shared.  A handle leads to a table, and several handles may lead to the
same one: what is interned through one of them is seen through all of them.  Names do not know
their table, so a name of one table may be asked for in another.
-/

namespace InlineLocals

/-- Tables of names and the handles that lead to them. -/
structure NamePool where
  tables : Array Names
  /-- For each handle, the place of the table that it leads to. -/
  handles : Array Nat

namespace NamePool

/-- One handle, to one table without texts. -/
def initial : NamePool := ⟨#[.empty], #[0]⟩

/-- A handle to a new table. -/
def create (pool : NamePool) : Nat × NamePool :=
  (pool.handles.size, ⟨pool.tables.push .empty, pool.handles.push pool.tables.size⟩)

/-- The table that a handle leads to. -/
def table? (pool : NamePool) (handle : Nat) : Option Names := do
  let place ← pool.handles[handle]?
  pool.tables[place]?

/-- Another handle to the table of a handle. -/
def share? (pool : NamePool) (handle : Nat) : Option (Nat × NamePool) := do
  let place ← pool.handles[handle]?
  return (pool.handles.size, { pool with handles := pool.handles.push place })

/-- Interns a text in the table of a handle. -/
def intern? (pool : NamePool) (handle : Nat) (text : String) : Option (Name × NamePool) := do
  let place ← pool.handles[handle]?
  let names ← pool.tables[place]?
  let (name, names) := names.intern text
  return (name, { pool with tables := pool.tables.setIfInBounds place names })

/-- A short account of the table of a handle. -/
def summary? (pool : NamePool) (handle : Nat) : Option String :=
  (pool.table? handle).map fun names => s!"StringInterner \x7b len: {names.size} \x7d"

end NamePool

end InlineLocals
