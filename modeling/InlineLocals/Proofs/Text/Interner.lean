import InlineLocals.Proofs.Text.Interning

/-!
# Text — Interner

What is asked of a table of texts, apart from how one is made.  An `Interner` has a table without
texts and four operations.  Its laws (`Interner.Lawful`) say that a text that is there keeps its
name and changes nothing, and that one that is not takes the number of texts as its name.

`Names` is one interner that meets the laws (`Names.interner_lawful`).  They leave no freedom: two
interners that meet them and intern the same texts in turn answer alike (`Interner.Lawful.agree`),
so whatever is proved of `Names` holds with any of them in its place.
-/

namespace InlineLocals

/-- Tables of texts, of whatever type, and what can be asked of them. -/
structure Interner (Table : Type) where
  /-- The table without texts. -/
  empty : Table
  /-- How many texts a table holds. -/
  size : Table → Nat
  /-- The name of a text, if the table holds it. -/
  find? : Table → String → Option Name
  /-- The text of a name, if the table gave it out. -/
  text? : Table → Name → Option String
  /-- The name of a text, which enters the table if it is not there yet. -/
  intern : Table → String → Name × Table

namespace Interner

variable {Table Table' : Type} {I : Interner Table} {J : Interner Table'}

/-- The laws of an interner. -/
structure Lawful (I : Interner Table) : Prop where
  size_empty : I.size I.empty = 0
  find?_empty (text : String) : I.find? I.empty text = none
  text?_empty (name : Name) : I.text? I.empty name = none
  /-- A text that is there keeps its name, and the table stays as it is. -/
  intern_found {table : Table} {text : String} {name : Name} :
    I.find? table text = some name → I.intern table text = (name, table)
  /-- A new text takes the number of texts as its name. -/
  intern_new {table : Table} {text : String} :
    I.find? table text = none → (I.intern table text).1 = ⟨I.size table⟩
  size_new {table : Table} {text : String} :
    I.find? table text = none → I.size (I.intern table text).2 = I.size table + 1
  /-- Only the new text is found in addition. -/
  find?_new {table : Table} {text : String} : I.find? table text = none →
    ∀ other, I.find? (I.intern table text).2 other =
      if other = text then some ⟨I.size table⟩ else I.find? table other
  /-- Only the new name has a text in addition. -/
  text?_new {table : Table} {text : String} : I.find? table text = none →
    ∀ name, I.text? (I.intern table text).2 name =
      if name = ⟨I.size table⟩ then some text else I.text? table name

/-- The table after texts have been interned in turn in an empty one. -/
def after (I : Interner Table) (texts : List String) : Table :=
  texts.foldl (fun table text => (I.intern table text).2) I.empty

/-- Two tables that answer alike. -/
structure Agrees (I : Interner Table) (J : Interner Table') (table : Table) (table' : Table') :
    Prop where
  size_eq : I.size table = J.size table'
  find?_eq (text : String) : I.find? table text = J.find? table' text
  text?_eq (name : Name) : I.text? table name = J.text? table' name

namespace Agrees

variable {table : Table} {table' : Table'}

/-- Interning gives the same name in both tables, and they go on answering alike. -/
theorem intern (hI : I.Lawful) (hJ : J.Lawful) (h : I.Agrees J table table') (text : String) :
    (I.intern table text).1 = (J.intern table' text).1 ∧
      I.Agrees J (I.intern table text).2 (J.intern table' text).2 := by
  cases hf : I.find? table text with
  | some name =>
      rw [hI.intern_found hf, hJ.intern_found ((h.find?_eq text).symm.trans hf)]
      exact ⟨rfl, h⟩
  | none =>
      have hf' := (h.find?_eq text).symm.trans hf
      refine ⟨by rw [hI.intern_new hf, hJ.intern_new hf', h.size_eq], ?_, fun other => ?_,
        fun name => ?_⟩
      · rw [hI.size_new hf, hJ.size_new hf', h.size_eq]
      · rw [hI.find?_new hf, hJ.find?_new hf', h.size_eq, h.find?_eq]
      · rw [hI.text?_new hf, hJ.text?_new hf', h.size_eq, h.text?_eq]

end Agrees

/-- **The laws leave no freedom.**  Interners that intern the same texts in turn answer alike, and
give the same name to the next one. -/
theorem Lawful.agree (hI : I.Lawful) (hJ : J.Lawful) (texts : List String) :
    I.Agrees J (I.after texts) (J.after texts) ∧
      ∀ text, (I.intern (I.after texts) text).1 = (J.intern (J.after texts) text).1 := by
  suffices I.Agrees J (I.after texts) (J.after texts) from
    ⟨this, fun text => (this.intern hI hJ text).1⟩
  induction texts using List.reverseRecOn with
  | nil =>
      exact ⟨hI.size_empty.trans hJ.size_empty.symm,
        fun text => (hI.find?_empty text).trans (hJ.find?_empty text).symm,
        fun name => (hI.text?_empty name).trans (hJ.text?_empty name).symm⟩
  | append_singleton texts text ih =>
      simp only [after, List.foldl_append] at ih ⊢
      exact (ih.intern hI hJ text).2

end Interner

namespace Names

/-- Tables of names as an interner. -/
def interner : Interner Names where
  empty := .empty
  size := size
  find? := find?
  text? := text?
  intern := intern

theorem find?_intern_of_find?_eq_none {names : Names} {text : String}
    (h : names.find? text = none) (other : String) :
    (names.intern text).2.find? other =
      if other = text then some names.next else names.find? other := by
  split
  · next e =>
    subst e
    rw [find?_eq_some_iff, ← (texts_intern_of_find?_eq_none h).1]
    exact names.text?_intern other
  · next hne =>
    -- A name of the other text is one before and one after, since tables only grow at the end.
    refine Option.ext fun name => ?_
    rw [find?_eq_some_iff, find?_eq_some_iff, text?, text?,
      (texts_intern_of_find?_eq_none h).2, Array.getElem?_push]
    split
    · next hsize =>
      rw [hsize, Array.getElem?_eq_none (Nat.le_refl _)]
      simp [Ne.symm hne]
    · rfl

theorem interner_lawful : interner.Lawful where
  size_empty := rfl
  find?_empty _ := by simp [interner, find?, empty]
  text?_empty _ := by simp [interner, text?, empty]
  intern_found h := intern_of_find? h
  intern_new h := (texts_intern_of_find?_eq_none h).1
  size_new h :=
    (congrArg Array.size (texts_intern_of_find?_eq_none h).2).trans (Array.size_push ..)
  find?_new h := find?_intern_of_find?_eq_none h
  text?_new {names text} h name := by
    show (names.intern text).2.texts[name.number]? = _
    rw [(texts_intern_of_find?_eq_none h).2, Array.getElem?_push]
    exact if_congr (by rw [Name.mk.injEq]; rfl) rfl rfl

end Names

end InlineLocals
