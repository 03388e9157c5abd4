import Std.Data.HashMap
import InlineLocals.Symbol.Local

/-!
# Symbol — Table

Tables from names to symbols.  A name that is set again takes the new symbol
(`get?_set`), and every name counts once.
-/

namespace InlineLocals

/-- A table from names to symbols. -/
structure SymbolTable where
  entries : Std.HashMap Name SymbolId

namespace SymbolTable

/-- The table without names. -/
def empty : SymbolTable := ⟨∅⟩

/-- The symbol of a name. -/
def get? (t : SymbolTable) (name : Name) : Option SymbolId := t.entries[name]?

/-- Gives a name a symbol, in place of the one it had. -/
def set (t : SymbolTable) (name : Name) (id : SymbolId) : SymbolTable :=
  ⟨t.entries.insert name id⟩

/-- The table gives the name a symbol. -/
def contains (t : SymbolTable) (name : Name) : Bool := t.entries.contains name

/-- The number of names in the table. -/
def size (t : SymbolTable) : Nat := t.entries.size

/-- The table has no names. -/
def isEmpty (t : SymbolTable) : Bool := t.entries.isEmpty

/-- The texts of the names with their symbols, in the order of the texts. -/
def listing (t : SymbolTable) (names : Names) : List (String × SymbolId) :=
  (t.entries.toList.map fun (name, id) => (names.text name, id)).mergeSort
    fun a b => decide (a.1 ≤ b.1)

theorem get?_empty (name : Name) : empty.get? name = none := by
  simp [empty, get?]

theorem get?_set (t : SymbolTable) (name other : Name) (id : SymbolId) :
    (t.set name id).get? other = if name = other then some id else t.get? other := by
  simp [set, get?, Std.HashMap.getElem?_insert]

theorem contains_iff (t : SymbolTable) (name : Name) :
    t.contains name = true ↔ ∃ id, t.get? name = some id := by
  rw [contains, get?, Std.HashMap.contains_eq_isSome_getElem?, Option.isSome_iff_exists]

end SymbolTable

end InlineLocals
