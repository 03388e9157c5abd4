import InlineLocals.Proofs.Syntax.Script
import InlineLocals.Proofs.Text.Interner

/-!
# Syntax — Naming

What the table of a workshop holds.  Productions ask it for nothing but to intern the texts of the
identifiers that they write (`Product.Makes.names_eq`), so a workshop that began with an empty
table has the table that a pool has after interning these texts in turn (`named_chronicle`).  All
that a pool keeps of its names (`NamePool.Faithful`) is thereby true of workshops: together with
the place of an identifier in the script this is `names_faithful`.  Nothing depends on how the table
is made: any lawful interner that is asked the same answers as it does
(`Workshop.interner_agrees`).
-/

namespace InlineLocals

/-! ### Interning one text after the other -/

/-- The table after texts have been interned in turn. -/
def Names.internAll (names : Names) (texts : List String) : Names :=
  texts.foldl (fun names text => (names.intern text).2) names

namespace Names

theorem internAll_append (names : Names) (texts more : List String) :
    names.internAll (texts ++ more) = (names.internAll texts).internAll more :=
  List.foldl_append

/-- The table that starts empty lists each text once, in the order in which they came first. -/
theorem lists_internAll (texts : List String) : (empty.internAll texts).Lists texts := by
  induction texts using List.reverseRecOn with
  | nil => exact lists_empty
  | append_singleton texts text ih =>
      rw [internAll_append]
      exact ih.intern text

end Names

/-- A pool that is asked to intern texts through its first handle has one table, which holds
them. -/
theorem NamePool.serveAll?_intern (texts : List String) :
    initial.serveAll? (texts.map (.intern 0)) = some ⟨#[Names.empty.internAll texts], #[0]⟩ := by
  induction texts using List.reverseRecOn with
  | nil => rfl
  | append_singleton texts text ih =>
      rw [List.map_append, List.map_singleton, serveAll?_concat, ih, Names.internAll_append]
      rfl

/-! ### Productions intern what they write -/

/-- The texts of the identifiers of a script, in order. -/
def Spelling.identifierTexts (script : List Spelling) : List String :=
  script.filterMap fun
    | identifier text => some text
    | token _ _ | discard => none

open Spelling (identifierTexts)

theorem Spelling.identifierTexts_append (script more : List Spelling) :
    identifierTexts (script ++ more) = identifierTexts script ++ identifierTexts more :=
  List.filterMap_append

variable {w w' : Workshop}

/-- A leaf interns its text, if it has one. -/
theorem Spelling.names_of_run {s : Spelling} {leaf : Leaf}
    (h : s.write.run w = .ok (leaf, w')) : w'.names = w.names.internAll (identifierTexts [s]) := by
  cases s <;> cases h <;> rfl

/-- Leaves intern their texts from left to right. -/
theorem Spelling.Written.names_eq {spellings : List Spelling} {written : List Leaf}
    (h : Written spellings w written w') :
    w'.names = w.names.internAll (identifierTexts spellings) := by
  induction h with
  | nil w => rfl
  | cons hs _ ih =>
      rw [ih, names_of_run hs, ← Names.internAll_append, ← identifierTexts_append]
      rfl

/-- A production interns the texts of its script. -/
theorem Product.Makes.names_eq {product : Product} {groups : List (List Piece)} {piece : Piece}
    (h : product.Makes groups w piece w') :
    w'.names = w.names.internAll (identifierTexts product.script) := by
  cases h with
  | leaf h => exact Spelling.names_of_run h
  | word h =>
      obtain ⟨-, rfl⟩ := Build.run_bareNode_eq_ok h
      rfl
  | covering hd h =>
      have hnames := Spelling.names_of_run hd
      obtain ⟨-, rfl⟩ := Build.run_bareNode_eq_ok h
      exact hnames
  | node hw hf h =>
      obtain ⟨-, -, -, rfl⟩ := Build.run_node_eq_ok h
      exact hf.names_eq.trans hw.names_eq

/-- The table holds what the productions applied so far have written. -/
theorem named_chronicle : Chronicle (fun _ => True)
    (fun past w _ => w.names =
      Names.empty.internAll (identifierTexts (Production.script past)))
    (fun _ => True) where
  perm _ h := h
  shelf _ h := h
  make {p groups past rest w} _ h := Build.ends_iff.mpr ⟨fun piece w' hr => by
    rw [(Production.makes_of_run hr).2.names_eq, h, ← Names.internAll_append,
      ← Spelling.identifierTexts_append, Production.script_append]
    simp [Production.script], fun _ _ => trivial⟩
  wrapped _ _ _ := trivial
  joined _ := trivial
  absent _ := trivial
  emptyChain := trivial

/-! ### Names of workshops -/

/-- The names of a workshop that has written the script. -/
structure Workshop.Named (w : Workshop) (script : List Spelling) : Prop where
  /-- The table is that of a pool which was asked to intern the texts of the identifiers. -/
  asked : NamePool.initial.serveAll? ((identifierTexts script).map (.intern 0)) =
    some ⟨#[w.names], #[0]⟩
  size : w.names.size = (identifierTexts script).eraseDups.length
  /-- Every identifier there is resolves to the text that was written for it. -/
  resolves (i : Identifier) : .identifier i ∈ w.pieces.flatMap Piece.leaves →
    ∃ text, Spelling.StandsAt script i.range (.identifier text) ∧ w.names.text? i.name = some text

/-- Whatever interner meets the laws, it answers as the table of the workshop does once it has
interned the texts of the identifiers in the order in which they were written. -/
theorem Workshop.interner_agrees {forms : List Form} (built : ofForms forms = .ok w)
    {Table : Type} {I : Interner Table} (hI : I.Lawful) :
    I.Agrees Names.interner
      (I.after (identifierTexts (Production.script (Form.productionsAll forms)))) w.names := by
  have hnames : w.names = Names.interner.after _ :=
    named_chronicle.ofForms built (fun _ _ _ _ _ _ _ => trivial) rfl
  rw [hnames]
  exact (hI.agree Names.interner_lawful _).1

/-- The table of a workshop is the table of all texts that were written. -/
theorem Workshop.named {forms : List Form} (built : ofForms forms = .ok w) :
    w.Named (Production.script (Form.productionsAll forms)) := by
  have hnames := named_chronicle.ofForms built (fun _ _ _ _ _ _ _ => trivial) rfl
  have hscripted := scripted_chronicle.ofForms built (fun _ _ _ _ _ _ _ => trivial) ⟨rfl, nofun⟩
  refine ⟨?_, ?_, fun i hi => ?_⟩
  · rw [hnames]
    exact NamePool.serveAll?_intern _
  · rw [hnames]
    exact (Names.lists_internAll _).size_eq
  · obtain ⟨s, hs, hspells⟩ := hscripted.stands _ hi
    cases hspells with
    | identifier ht => exact ⟨_, hs, ht⟩

/-- **Interning is an append-only bijection that copies of a handle share**, after every history of
requests; and building forms asks for nothing else, so that the table of a workshop holds each text
of an identifier once, and every identifier resolves to its text. -/
theorem names_faithful :
    (∀ (history : List NamePool.Request) (pool : NamePool),
      NamePool.initial.serveAll? history = some pool → pool.Faithful (Account.of history)) ∧
    ∀ (forms : List Form) (w : Workshop), Workshop.ofForms forms = .ok w →
      w.Named (Production.script (Form.productionsAll forms)) :=
  ⟨fun _ _ h => (Account.mirrors h).faithful, fun _ _ built => Workshop.named built⟩

/-- A text is interned through a handle and again through its copy, and another one after it; and
two identifiers of one text are built. -/
theorem names_faithful_sampleCopy : ∃ (pool : NamePool) (w : Workshop),
    NamePool.initial.serveAll?
      [.intern 0 "value", .share 0, .intern 1 "value", .intern 1 "result"] = some pool ∧
    pool.Faithful ⟨1, [0, 0], [(0, "value"), (0, "value"), (0, "result")]⟩ ∧
    Workshop.ofForms [.name "x", .name "x"] = .ok w ∧
    w.Named [.identifier "x", .identifier "x"] := by
  let names : Names := (((Names.empty.intern "value").2.intern "value").2.intern "result").2
  let first : Names := (Names.empty.intern "x").2
  let n : Node :=
    .mk ⟨⟨.identifierName, 1, ⟨0, 1⟩⟩, [.identifier ⟨0, ⟨0, 1⟩, (Names.empty.intern "x").1⟩], 0⟩ []
  let m : Node :=
    .mk ⟨⟨.identifierName, 3, ⟨2, 3⟩⟩, [.identifier ⟨2, ⟨2, 3⟩, (first.intern "x").1⟩], 0⟩ []
  let w : Workshop := ⟨4, 4, (first.intern "x").2, #[some (.node n), some (.node m)]⟩
  have served : NamePool.initial.serveAll?
      [.intern 0 "value", .share 0, .intern 1 "value", .intern 1 "result"] =
        some ⟨#[names], #[0, 0]⟩ := rfl
  have built : Workshop.ofForms [.name "x", .name "x"] = .ok w := rfl
  exact ⟨_, w, served, names_faithful.1 _ _ served, built, names_faithful.2 _ _ built⟩

end InlineLocals
