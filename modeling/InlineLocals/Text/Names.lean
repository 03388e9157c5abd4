import Std.Data.HashMap

/-!
# Text — Names

Names are texts replaced by numbers, so that two of them are compared by comparing numbers.
A table of names only grows: a text that is not in the table takes the next number, a text that
is in it keeps the number it has.  `Names.find?` and `Names.text?` are inverse to each other in
every table (`find?_eq_some_iff`), because the table carries that fact.
-/

namespace InlineLocals

/-- A text by its number in a table of names. -/
structure Name where
  number : Nat
deriving DecidableEq, Hashable, Inhabited

namespace Name

/-- Names are ordered by their numbers. -/
instance : Ord Name := ⟨fun m n => compare m.number n.number⟩

end Name

/-- A table of names: the texts in the order of their numbers, and the way back. -/
structure Names where
  /-- The text of the name with number `k` stands at place `k`. -/
  texts : Array String
  /-- The name of each text of the table. -/
  numbers : Std.HashMap String Name
  numbers_iff (text : String) (name : Name) :
    numbers[text]? = some name ↔ texts[name.number]? = some text

namespace Names

/-- The table without texts. -/
def empty : Names where
  texts := #[]
  numbers := ∅
  numbers_iff := by simp

instance : Inhabited Names := ⟨empty⟩

/-- How many texts the table holds. -/
def size (names : Names) : Nat := names.texts.size

/-- The table holds no text. -/
def isEmpty (names : Names) : Bool := names.size == 0

/-- The name of a text, if the table holds it. -/
def find? (names : Names) (text : String) : Option Name := names.numbers[text]?

/-- The text of a name, if the table gave that number out. -/
def text? (names : Names) (name : Name) : Option String := names.texts[name.number]?

/-- The text of a name; a number that the table never gave out has the text `""`. -/
def text (names : Names) (name : Name) : String := (names.text? name).getD ""

/-- Whether `name` is the name that the table gives to `text`. -/
def isNamed (names : Names) (name : Name) (text : String) : Bool := names.find? text == some name

/-- The name that the next new text takes. -/
def next (names : Names) : Name := ⟨names.texts.size⟩

/-- A text that the table does not hold, entered under the next number, keeps the two ways
inverse to each other. -/
theorem numbers_iff_push (names : Names) {text : String} (fresh : names.find? text = none)
    (other : String) (name : Name) :
    (names.numbers.insert text names.next)[other]? = some name ↔
      (names.texts.push text)[name.number]? = some other := by
  have old := names.numbers_iff
  have new (k : Nat) : names.texts[k]? ≠ some text := fun h =>
    absurd (fresh.symm.trans ((old text ⟨k⟩).mpr h)) nofun
  obtain ⟨k⟩ := name
  rw [next, Std.HashMap.getElem?_insert, Array.getElem?_push]
  by_cases ht : text = other
  · subst ht
    by_cases hk : k = names.texts.size
    · simp [hk]
    · simp [hk, new, Ne.symm hk]
  · by_cases hk : k = names.texts.size
    · have hn := old other ⟨k⟩
      rw [hk, Array.getElem?_eq_none (Nat.le_refl _)] at hn
      simp [ht, hk, hn]
    · simp [ht, hk, old]

/-- Enters a text that the table does not hold under the next number. -/
def push (names : Names) (text : String) (fresh : names.find? text = none) : Names :=
  let name := names.next
  { texts := names.texts.push text
    numbers := names.numbers.insert text name
    numbers_iff := numbers_iff_push names fresh }

/-- The name of a text, which enters the table if it is not there yet. -/
def intern (names : Names) (text : String) : Name × Names :=
  match h : names.find? text with
  | some name => (name, names)
  | none => (names.next, names.push text h)

/-! ### Finding and interning -/

theorem find?_eq_some_iff {names : Names} {text : String} {name : Name} :
    names.find? text = some name ↔ names.text? name = some text :=
  names.numbers_iff text name

theorem isNamed_iff {names : Names} {name : Name} {text : String} :
    names.isNamed name text = true ↔ names.text? name = some text := by
  simp [isNamed, find?_eq_some_iff]

theorem intern_of_find? {names : Names} {text : String} {name : Name}
    (h : names.find? text = some name) : names.intern text = (name, names) := by
  unfold intern
  split
  · simp_all
  · simp_all

theorem texts_intern_of_find?_eq_none {names : Names} {text : String}
    (h : names.find? text = none) :
    (names.intern text).1 = names.next ∧
      (names.intern text).2.texts = names.texts.push text := by
  unfold intern
  split
  · simp_all
  · exact ⟨rfl, rfl⟩

/-- Interning a text gives its name in the new table. -/
theorem text?_intern (names : Names) (text : String) :
    (names.intern text).2.text? (names.intern text).1 = some text := by
  cases h : names.find? text with
  | some name => rw [intern_of_find? h]; exact find?_eq_some_iff.mp h
  | none =>
      obtain ⟨hname, htexts⟩ := texts_intern_of_find?_eq_none h
      simp [text?, hname, htexts, next]

/-- Interning a text once more gives the same name and changes nothing. -/
theorem intern_intern (names : Names) (text : String) :
    (names.intern text).2.intern text = names.intern text :=
  intern_of_find? (find?_eq_some_iff.mpr (names.text?_intern text))

/-- A name keeps its text when the table grows. -/
theorem text?_intern_of_text? {names : Names} {name : Name} {old : String}
    (h : names.text? name = some old) (text : String) :
    (names.intern text).2.text? name = some old := by
  cases hf : names.find? text with
  | some found => rw [intern_of_find? hf]; exact h
  | none =>
      have hlt : name.number < names.texts.size := (Array.getElem?_eq_some_iff.mp h).1
      simp only [text?, (texts_intern_of_find?_eq_none hf).2, Array.getElem?_push,
        if_neg (Nat.ne_of_lt hlt)]
      exact h

end Names

end InlineLocals
