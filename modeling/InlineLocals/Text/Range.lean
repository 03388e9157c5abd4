/-!
# Text — Range

Half-open stretches of source text, and the smallest stretch that covers two of them.

A range is *upright* when it does not end before it starts.  A range can be written down
without being upright; `make?` and `cover?` refuse to produce one that is not, and
`length?` refuses to measure one.  On upright ranges covering always succeeds
(`cover?_of_upright`), is symmetric (`cover?_comm`) and contains both sides
(`contains_left_of_cover?`, `contains_right_of_cover?`).
-/

namespace InlineLocals

/-- A stretch of text, from the offset `pos` up to but not including the offset `stop`. -/
structure Range where
  pos : Nat
  stop : Nat
deriving DecidableEq, Inhabited

namespace Range

/-- The range does not end before it starts. -/
def Upright (r : Range) : Prop := r.pos ≤ r.stop

instance (r : Range) : Decidable r.Upright := inferInstanceAs (Decidable (r.pos ≤ r.stop))

/-- The range with the given ends, when it is upright. -/
def make? (pos stop : Nat) : Option Range :=
  if pos ≤ stop then some ⟨pos, stop⟩ else none

/-- The range that starts and ends at `pos`. -/
def empty (pos : Nat) : Range := ⟨pos, pos⟩

/-- The number of offsets in the range; there is no answer for a range that is not upright. -/
def length? (r : Range) : Option Nat :=
  if r.pos ≤ r.stop then some (r.stop - r.pos) else none

/-- The range starts where it ends. -/
def isEmpty (r : Range) : Bool := r.pos == r.stop

/-- Whether `s` starts no earlier than `r` and ends no later. -/
def contains (r s : Range) : Bool := decide (r.pos ≤ s.pos) && decide (s.stop ≤ r.stop)

/-- The range from the smaller start to the larger end, when it is upright. -/
def cover? (r s : Range) : Option Range := make? (min r.pos s.pos) (max r.stop s.stop)

/-- Covers all the ranges of a list, from left to right; a list without ranges is covered by the
empty range at `origin`. -/
def span? (origin : Nat) : List Range → Option Range
  | [] => some (empty origin)
  | r :: rest => rest.foldlM cover? r

/-- The interval form, `[pos, stop)`. -/
def interval (r : Range) : String := s!"[{r.pos}, {r.stop})"

/-- The dotted form, `pos..stop`. -/
def dotted (r : Range) : String := s!"{r.pos}..{r.stop}"

/-! ### Making and covering -/

/-- A range is made when it would not end before it starts. -/
theorem make?_eq_some_iff {pos stop : Nat} {r : Range} :
    make? pos stop = some r ↔ pos ≤ stop ∧ r = ⟨pos, stop⟩ := by
  unfold make?
  split
  · next h => exact ⟨fun e => ⟨h, (Option.some.inj e).symm⟩, fun e => e.2 ▸ rfl⟩
  · next h => exact ⟨nofun, fun e => absurd e.1 h⟩

theorem make?_eq_none_iff {pos stop : Nat} : make? pos stop = none ↔ stop < pos := by
  unfold make?; split <;> simp <;> omega

theorem upright_empty (pos : Nat) : (empty pos).Upright := Nat.le_refl pos

/-- One range contains another when it starts no later and stops no earlier. -/
theorem contains_iff {r s : Range} : r.contains s = true ↔ r.pos ≤ s.pos ∧ s.stop ≤ r.stop := by
  simp [contains]

/-- Which of two ranges comes first does not matter, also when there is no cover. -/
theorem cover?_comm (r s : Range) : r.cover? s = s.cover? r := by
  simp only [cover?, Nat.min_comm, Nat.max_comm]

/-- The cover of an upright range with any other reaches from the first start to the last stop. -/
theorem cover?_of_upright {r s : Range} (hr : r.Upright) :
    r.cover? s = some ⟨min r.pos s.pos, max r.stop s.stop⟩ := by
  have h : min r.pos s.pos ≤ max r.stop s.stop := by
    have : r.pos ≤ r.stop := hr
    omega
  simp [cover?, make?, h]

/-- A cover is upright. -/
theorem upright_of_cover? {r s t : Range} (h : r.cover? s = some t) : t.Upright := by
  obtain ⟨hle, rfl⟩ := make?_eq_some_iff.mp h
  exact hle

theorem contains_left_of_cover? {r s t : Range} (h : r.cover? s = some t) :
    t.contains r = true := by
  obtain ⟨-, rfl⟩ := make?_eq_some_iff.mp h
  exact contains_iff.mpr ⟨Nat.min_le_left _ _, Nat.le_max_left _ _⟩

theorem contains_right_of_cover? {r s t : Range} (h : r.cover? s = some t) :
    t.contains s = true :=
  contains_left_of_cover? ((cover?_comm s r).trans h)

end Range

end InlineLocals
