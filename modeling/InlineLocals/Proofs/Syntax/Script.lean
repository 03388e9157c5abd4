import Mathlib
import InlineLocals.Proofs.Syntax.Layout
import InlineLocals.Proofs.Text.Interning

/-!
# Syntax — Script

The text that a workshop has written.  A production writes what it says and nothing else
(`Product.script`), so the script of a workshop is read off the forms, without running them.  Every
stretch of it leaves one position free behind itself, hence a range that a stretch takes tells which
one it is (`Spelling.StandsAt.unique`).

`Workshop.Scripted` ties the leaves of a workshop to its script: a leaf has the range of the stretch
that it was written for, and an identifier has a name that the table resolves to the text that
stands there.  Names keep their texts when the table grows (`Names.Grows`), and
`scripted_chronicle` carries this through every evaluation.
-/

namespace InlineLocals

/-! ### Scripts -/

/-- What a product writes, stretch by stretch. -/
def Product.script : Product → List Spelling
  | leaf spelling => [spelling]
  | word kind width => [.token kind width]
  | covering _ token => [.fixed token]
  | node _ spellings _ _ => spellings

/-- What productions write, one after the other. -/
def Production.script (productions : List Production) : List Spelling :=
  productions.flatMap (·.product.script)

theorem Production.script_append (ps qs : List Production) :
    script (ps ++ qs) = script ps ++ script qs := List.flatMap_append

namespace Spelling

/-- The positions that a script takes: after each stretch one is left free. -/
def extent (script : List Spelling) : Nat := (script.map (·.width + 1)).sum

/-- What is written after a script starts where the script ends. -/
theorem extent_append (script more : List Spelling) :
    extent (script ++ more) = extent script + extent more := by
  simp [extent]

/-- Every spelling takes up room, if only for what separates it from the next. -/
theorem eq_nil_of_extent_eq_zero {script : List Spelling} (h : extent script = 0) :
    script = [] := by
  cases script with
  | nil => rfl
  | cons s script => simp [extent] at h

/-- The stretch `s` of the script takes the range. -/
def StandsAt (script : List Spelling) (range : Range) (s : Spelling) : Prop :=
  ∃ before after, script = before ++ s :: after ∧
    range = ⟨extent before, extent before + s.width⟩

/-- What is written last stands at the end. -/
theorem standsAt_last (script : List Spelling) (s : Spelling) :
    StandsAt (script ++ [s]) ⟨extent script, extent script + s.width⟩ s :=
  ⟨script, [], rfl, rfl⟩

/-- What stands somewhere stays there when more is written. -/
theorem StandsAt.append {script : List Spelling} {range : Range} {s : Spelling}
    (h : StandsAt script range s) (more : List Spelling) : StandsAt (script ++ more) range s := by
  obtain ⟨before, after, rfl, hr⟩ := h
  exact ⟨before, after ++ more, by simp, hr⟩

/-- What stands before a stretch takes positions, so no two stretches begin at the same one. -/
theorem StandsAt.unique {script : List Spelling} {range : Range} {s s' : Spelling}
    (h : StandsAt script range s) (h' : StandsAt script range s') : s = s' := by
  obtain ⟨before, after, rfl, rfl⟩ := h
  obtain ⟨before', after', hscript, hrange⟩ := h'
  have hpos : extent before = extent before' := congrArg Range.pos hrange
  rcases List.append_eq_append_iff.mp hscript with ⟨gap, rfl, hgap⟩ | ⟨gap, rfl, hgap⟩
  all_goals
    have hnil : gap = [] := eq_nil_of_extent_eq_zero (by rw [extent_append] at hpos; omega)
    subst hnil
    simp_all

end Spelling

/-! ### Leaves of a script -/

/-- The leaf is written as `s`, its name being read in the table. -/
inductive Leaf.Spells (names : Names) : Leaf → Spelling → Prop where
  | token (info : Info) (width : Nat) : Spells names (.token info) (.token info.kind width)
  | identifier {i : Identifier} {text : String} (h : names.text? i.name = some text) :
      Spells names (.identifier i) (.identifier text)
  | discard (id : NodeId) (range : Range) : Spells names (.discard id range) .discard

/-- A leaf spells the same when the table of names grows. -/
theorem Leaf.Spells.mono {names names' : Names} {l : Leaf} {s : Spelling}
    (h : l.Spells names s) (hn : names.Grows names') : l.Spells names' s := by
  cases h with
  | token info width => exact .token info width
  | identifier h => exact .identifier (hn _ _ h)
  | discard id range => exact .discard id range

/-- The leaf that is written spells what was asked for, and no name loses its text. -/
theorem Spelling.spells_of_run {s : Spelling} {leaf : Leaf} {w w' : Workshop}
    (h : s.write.run w = .ok (leaf, w')) :
    leaf.Spells w'.names s ∧ w.names.Grows w'.names := by
  cases s with
  | token kind width => cases h; exact ⟨.token _ width, .refl _⟩
  | identifier text =>
      cases h
      exact ⟨.identifier (w.names.text?_intern text), .intern w.names text⟩
  | discard => cases h; exact ⟨.discard _ _, .refl _⟩

namespace Workshop

/-- The workshop has written the script, and the leaves stand in it. -/
structure Scripted (script : List Spelling) (w : Workshop) (leaves : List Leaf) : Prop where
  nextPos : w.nextPos = Spelling.extent script
  stands : ∀ l ∈ leaves, ∃ s, Spelling.StandsAt script l.range s ∧ l.Spells w.names s

namespace Scripted

variable {script : List Spelling} {w v : Workshop} {leaves : List Leaf}

theorem mono (h : w.Scripted script leaves) {fewer : List Leaf} (hs : fewer ⊆ leaves) :
    w.Scripted script fewer :=
  ⟨h.nextPos, fun l hl => h.stands l (hs hl)⟩

/-- Only positions and names matter. -/
theorem advance (h : w.Scripted script leaves) (hpos : v.nextPos = w.nextPos)
    (hn : w.names.Grows v.names) : v.Scripted script leaves where
  nextPos := hpos.trans h.nextPos
  stands l hl := by
    obtain ⟨s, hs, hl⟩ := h.stands l hl
    exact ⟨s, hs, hl.mono hn⟩

/-- One more stretch is written. -/
theorem pass (h : w.Scripted script leaves) (s : Spelling)
    (hpos : v.nextPos = w.nextPos + s.width + 1) (hn : w.names.Grows v.names) :
    v.Scripted (script ++ [s]) leaves where
  nextPos := by
    rw [hpos, h.nextPos, Spelling.extent_append]
    simp [Spelling.extent, Nat.add_assoc]
  stands l hl := by
    obtain ⟨t, ht, hl⟩ := h.stands l hl
    exact ⟨t, ht.append [s], hl.mono hn⟩

/-- Writing one leaf adds its spelling to the script. -/
theorem write (h : w.Scripted script leaves) {s : Spelling} {leaf : Leaf}
    (hs : s.write.run w = .ok (leaf, v)) : v.Scripted (script ++ [s]) (leaf :: leaves) := by
  obtain ⟨-, hrange, -, hpos, -⟩ := Spelling.run_write_eq_ok hs
  obtain ⟨hspells, hn⟩ := Spelling.spells_of_run hs
  have old := h.pass s hpos hn
  refine ⟨old.nextPos, List.forall_mem_cons.mpr ⟨⟨s, ?_, hspells⟩, old.stands⟩⟩
  rw [hrange, h.nextPos]
  exact Spelling.standsAt_last script s

end Scripted

end Workshop

/-- So does writing several. -/
theorem Spelling.Written.scripted {spellings : List Spelling} {written : List Leaf}
    {w w' : Workshop} (h : Written spellings w written w') :
    ∀ {script : List Spelling} {leaves : List Leaf}, w.Scripted script leaves →
      w'.Scripted (script ++ spellings) (written ++ leaves) := by
  induction h with
  | nil w => exact fun h => by simpa using h
  | cons hs _ ih =>
      intro script leaves h
      refine List.append_cons script _ _ ▸ (ih (h.write hs)).mono ?_
      rw [List.cons_append]
      exact List.perm_middle.symm.subset

/-! ### Productions write nothing but their script -/

theorem Slot.Fills.names_eq {s : Slot} {group parts : List Piece} {w w' : Workshop}
    (h : s.Fills group w parts w') : w'.names = w.names := by
  cases h with
  | «open» | absent => rfl
  | hidden _ _ h => obtain ⟨-, -, -, rfl⟩ := Build.run_node_eq_ok h; rfl

theorem Slot.FillsAll.names_eq {slots : List Slot} {groups : List (List Piece)}
    {attached inner : List Piece} {w w' : Workshop}
    (h : FillsAll slots groups w attached inner w') : w'.names = w.names := by
  induction h with
  | nil w => rfl
  | attached _ _ h _ ih | inner _ _ h _ ih => exact ih.trans h.names_eq

theorem Spelling.Written.grows {spellings : List Spelling} {written : List Leaf}
    {w w' : Workshop} (h : Written spellings w written w') : w.names.Grows w'.names := by
  induction h with
  | nil w => exact .refl _
  | cons hs _ ih => exact (spells_of_run hs).2.trans ih

/-- A production adds names and takes none away. -/
theorem Product.Makes.grows {product : Product} {groups : List (List Piece)} {piece : Piece}
    {w w' : Workshop} (h : product.Makes groups w piece w') : w.names.Grows w'.names := by
  cases h with
  | leaf h => exact (Spelling.spells_of_run h).2
  | word h =>
      obtain ⟨-, rfl⟩ := Build.run_bareNode_eq_ok h
      exact .refl _
  | covering hd h =>
      obtain ⟨-, rfl⟩ := Build.run_bareNode_eq_ok h
      exact (Spelling.spells_of_run hd).2
  | node hw hf h =>
      obtain ⟨-, -, -, rfl⟩ := Build.run_node_eq_ok h
      exact hf.names_eq ▸ hw.grows

/-- The table of a workshop only grows. -/
theorem grows_invariant (names : Names) : Invariant fun w _ => names.Grows w.names where
  perm _ h := h
  shelf _ h := h
  make _ hm h := h.trans hm.grows

/-- What is made has the leaves of what it is made of and those that its production writes. -/
theorem Product.Makes.scripted {product : Product} {groups : List (List Piece)} {piece : Piece}
    {w w' : Workshop} (h : product.Makes groups w piece w') {script : List Spelling}
    {others : List Leaf}
    (hs : w.Scripted script (groups.flatten.flatMap Piece.leaves ++ others)) :
    w'.Scripted (script ++ product.script) (piece.leaves ++ others) := by
  cases h with
  | leaf h => exact hs.write h
  | @word kind width _ _ _ h =>
      obtain ⟨rfl, rfl⟩ := Build.run_bareNode_eq_ok h
      exact hs.pass (.token kind width) rfl (.refl _)
  | @covering kind token _ _ _ _ _ hd h =>
      obtain ⟨-, -, -, hpos, -⟩ := Spelling.run_write_eq_ok hd
      obtain ⟨rfl, rfl⟩ := Build.run_bareNode_eq_ok h
      exact hs.pass (.fixed token) hpos (Spelling.spells_of_run hd).2
  | @node kind spellings slots rank groups written attached inner n w v u w' hw hf h =>
      have hleaves := hf.allLeaves_subset h
      obtain ⟨-, -, -, rfl⟩ := Build.run_node_eq_ok h
      have hafter := (hw.scripted hs).advance (v := { u with nextId := u.nextId + 1 })
        hf.leaves_subset.2.2 (by rw [hf.names_eq]; exact .refl _)
      -- Filling the slots writes nothing, so the script ends with the spellings of the node.
      refine hafter.mono ?_
      rw [← List.append_assoc]
      exact List.append_subset.mpr
        ⟨List.Subset.trans hleaves (List.subset_append_left _ _), List.subset_append_right _ _⟩

/-- The leaves there are stand in the script of the productions applied so far. -/
theorem scripted_chronicle : Chronicle (fun _ => True)
    (fun past w pieces => w.Scripted (Production.script past) (pieces.flatMap Piece.leaves))
    (fun _ => True) where
  perm hp h := h.mono (hp.symm.flatMap_right _).subset
  shelf _ h := ⟨h.nextPos, h.stands⟩
  make {p groups past rest w} _ h := Build.ends_iff.mpr ⟨fun piece w' hr => by
    have hm := (Production.makes_of_run hr).2
    rw [List.flatMap_append] at h
    rw [Production.script_append]
    simpa [Production.script] using hm.scripted h, fun _ _ => trivial⟩
  wrapped _ _ _ := trivial
  joined _ := trivial
  absent _ := trivial
  emptyChain := trivial

end InlineLocals
