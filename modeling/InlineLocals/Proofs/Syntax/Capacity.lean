import InlineLocals.Proofs.Syntax.Numbering
import InlineLocals.Proofs.Syntax.Naming
import InlineLocals.Proofs.Syntax.SourceOrder

/-!
# Syntax — Capacity

How large the numbers of a workshop become.  Ids, positions and names are natural numbers here, and
have no largest one.  Where they are kept in machine words, everything goes well as long as the
counters stay below a limit, such as `2 ^ 32`, and the counters can be told from the forms before
anything is built: the next position is the extent of the script that the forms write, and the next
id is at most what their productions take (`Production.idBound`).

Counters only grow, so what holds of the last values holds of all values on the way.
`Workshop.fits_ofForms` bounds the workshop after each form of a list, and with it every number that
was ever handed out.
-/

namespace InlineLocals

/-! ### The ids that productions take -/

/-- The most ids that a product takes: one for each leaf that it writes, for each node that it hides
and for what it makes. -/
def Product.idBound : Product → Nat
  | leaf _ | word _ _ => 1
  | covering _ _ => 2
  | node _ spellings slots _ => spellings.length + slots.length + 1

/-- The most ids that productions take together. -/
def Production.idBound (ps : List Production) : Nat := (ps.map (·.product.idBound)).sum

theorem Production.idBound_append (ps qs : List Production) :
    idBound (ps ++ qs) = idBound ps + idBound qs := by
  simp [idBound]

section

variable {w w' : Workshop}

theorem Spelling.Written.nextId_eq {spellings : List Spelling} {written : List Leaf}
    (h : Written spellings w written w') : w'.nextId = w.nextId + spellings.length := by
  induction h with
  | nil w => rfl
  | cons hs _ ih =>
      rw [ih, (run_write_eq_ok hs).2.2.1, List.length_cons, Nat.add_assoc, Nat.add_comm 1]

/-- A slot takes an id if it hides its parts, and none otherwise. -/
theorem Slot.Fills.nextId_le {s : Slot} {group parts : List Piece}
    (h : s.Fills group w parts w') : w'.nextId ≤ w.nextId + 1 := by
  cases h with
  | «open» | absent => exact Nat.le_succ _
  | hidden _ _ hn =>
      obtain ⟨-, -, -, rfl⟩ := Build.run_node_eq_ok hn
      exact Nat.le_refl _

theorem Slot.FillsAll.nextId_le {slots : List Slot} {groups : List (List Piece)}
    {attached inner : List Piece} (h : FillsAll slots groups w attached inner w') :
    w'.nextId ≤ w.nextId + slots.length := by
  induction h with
  | nil w => exact Nat.le_refl _
  | attached _ _ hf _ ih | inner _ _ hf _ ih =>
      rw [List.length_cons, Nat.add_comm _ 1, ← Nat.add_assoc]
      exact Nat.le_trans ih (Nat.add_le_add_right hf.nextId_le _)

theorem Product.Makes.nextId_le {product : Product} {groups : List (List Piece)} {piece : Piece}
    (h : product.Makes groups w piece w') : w'.nextId ≤ w.nextId + product.idBound := by
  cases h with
  | leaf h =>
      rw [(Spelling.run_write_eq_ok h).2.2.1]
      exact Nat.le_refl _
  | word h =>
      obtain ⟨-, rfl⟩ := Build.run_bareNode_eq_ok h
      exact Nat.le_refl _
  | covering hd h =>
      obtain ⟨-, rfl⟩ := Build.run_bareNode_eq_ok h
      rw [(Spelling.run_write_eq_ok hd).2.2.1]
      exact Nat.le_refl _
  | node hw hf h =>
      obtain ⟨-, -, -, rfl⟩ := Build.run_node_eq_ok h
      have hfilled := hf.nextId_le
      rw [hw.nextId_eq, Nat.add_assoc] at hfilled
      exact Nat.add_le_add_right hfilled 1

end

/-- The next id is at most what the productions applied so far take. -/
theorem bounded_chronicle : Chronicle (fun _ => True)
    (fun past w _ => w.nextId ≤ Production.idBound past) (fun _ => True) where
  perm _ h := h
  shelf _ h := h
  make {p groups past rest w} _ h := Build.ends_iff.mpr ⟨fun piece w' hr => by
    have hone : Production.idBound [p] = p.product.idBound := List.sum_singleton
    rw [Production.idBound_append, hone]
    exact Nat.le_trans (Production.makes_of_run hr).2.nextId_le (Nat.add_le_add_right h _),
      fun _ _ => trivial⟩
  wrapped _ _ _ := trivial
  joined _ := trivial
  absent _ := trivial
  emptyChain := trivial

/-- All that there is lies before the next position. -/
theorem between_invariant : Invariant fun w pieces => ∀ p ∈ pieces, p.Between 0 w.nextPos where
  perm hp h p hm := h p (hp.mem_iff.mpr hm)
  shelf _ h := h
  make ha hm h := by
    rw [List.forall_mem_append] at h
    refine List.forall_mem_cons.mpr
      ⟨hm.between (Production.follows ha) (Nat.zero_le _) h.1, fun p hp r hr => ?_⟩
    have hold := h.2 p hp r hr
    exact ⟨hold.1, Nat.le_trans hold.2 hm.nextPos_le⟩

/-! ### Workshops within a limit -/

/-- The counters of the workshop and all numbers in it are below the limit. -/
structure Workshop.Fits (w : Workshop) (limit : Nat) : Prop where
  nextId_lt : w.nextId < limit
  nextPos_lt : w.nextPos < limit
  names_lt : w.names.size < limit
  leaf : ∀ l ∈ w.pieces.flatMap Piece.leaves, l.info.id < limit ∧ l.range.stop < limit
  node : ∀ n, w.Holds n → n.id < limit ∧ n.range.stop < limit

theorem Form.productionsAll_append (forms more : List Form) :
    productionsAll (forms ++ more) = productionsAll forms ++ productionsAll more := by
  induction forms with
  | nil => rfl
  | cons form forms ih => simp [productionsAll, ih]

/-- A script takes at least one position for each identifier. -/
theorem Spelling.length_identifierTexts_le (script : List Spelling) :
    (identifierTexts script).length ≤ extent script := by
  have hlength : script.length ≤ extent script := by
    have hone : ∀ k ∈ script.map (·.width + 1), 1 ≤ k := by simp
    exact (List.length_map _).symm.trans_le (List.length_le_sum_of_one_le _ hone)
  exact Nat.le_trans (List.length_filterMap_le _ script) hlength

/-- **Workshops fit.**  If the ids and the positions that the forms take are below the limit, then
so is every number in the workshop, after each of the forms. -/
theorem Workshop.fits_ofForms {forms : List Form} {limit : Nat}
    (hid : Production.idBound (Form.productionsAll forms) < limit)
    (hpos : Spelling.extent (Production.script (Form.productionsAll forms)) < limit) (k : Nat)
    {w : Workshop} (built : ofForms (forms.take k) = .ok w) : w.Fits limit := by
  have hsplit := congrArg Form.productionsAll (forms.take_append_drop k)
  rw [Form.productionsAll_append] at hsplit
  rw [← hsplit] at hid hpos
  rw [Production.idBound_append] at hid
  rw [Production.script_append, Spelling.extent_append] at hpos
  -- The counters only grow, so they are bounded by what all the forms take.
  have hbound := bounded_chronicle.ofForms built (fun _ _ _ _ _ _ _ => trivial) (Nat.zero_le _)
  have hscript := (scripted_chronicle.ofForms built (fun _ _ _ _ _ _ _ => trivial)
    ⟨rfl, nofun⟩).nextPos
  have hnextId : w.nextId < limit :=
    Nat.lt_of_le_of_lt (Nat.le_trans hbound (Nat.le_add_right _ _)) hid
  have hnextPos : w.nextPos < limit :=
    Nat.lt_of_le_of_lt (Nat.le_trans (Nat.le_of_eq hscript) (Nat.le_add_right _ _)) hpos
  refine ⟨hnextId, hnextPos, ?_, fun l hl => ?_, ?_⟩
  · have hnames := named_chronicle.ofForms built (fun _ _ _ _ _ _ _ => trivial) rfl
    rw [hnames]
    -- There are at most as many texts as identifiers, and each of these takes a position or more.
    refine Nat.lt_of_le_of_lt (Names.lists_internAll _).size_le ?_
    exact Nat.lt_of_le_of_lt (Spelling.length_identifierTexts_le _) (hscript ▸ hnextPos)
  · have hlaid := laid_leaves built
    exact ⟨Nat.lt_trans (hlaid.id_lt l hl) hnextId, Nat.lt_trans (hlaid.stop_lt l hl) hnextPos⟩
  · rintro n ⟨value, hv, hn⟩
    have hnumbered := numbered_invariant.ofForms built nofun (.node value) hv
    have hplace := between_invariant.ofForms built nofun (.node value) hv _
      (Piece.range_mem_ranges hn)
    have hle : n.id ≤ value.id := by
      by_cases he : n = value
      · exact Nat.le_of_eq (congrArg Node.id he)
      · exact Nat.le_of_lt (hnumbered.2.id_lt hn he)
    exact ⟨Nat.lt_trans (Nat.lt_of_le_of_lt hle hnumbered.1) hnextId,
      Nat.lt_of_le_of_lt hplace.2 hnextPos⟩

/-- The expression `!this` and its parts leave words of 32 bits almost empty. -/
example {w : Workshop} (built : Workshop.ofForms (sampleNegationForms.take 2) = .ok w) :
    w.Fits (2 ^ 32) :=
  Workshop.fits_ofForms (by decide) (by decide) 2 built

end InlineLocals
