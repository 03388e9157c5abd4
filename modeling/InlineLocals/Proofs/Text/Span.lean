import InlineLocals.Text.Range

/-!
# Text — Span

The span of a list of ranges is the smallest range that contains them all (`Range.Spans`); there
is one at most (`Range.Spans.unique`).  Covering two ranges joins them in the order of containment
(`Range.contains_cover?_iff`), so covering a list from left to right arrives at its span
(`Range.exists_span?`).  It never fails when the ranges are upright: what has been covered so far is
upright, and an upright range can be covered with any other.

Since a span is told by containment, the order of the ranges, how they are grouped and how often
each of them occurs do not matter (`Range.span?_join`).
-/

namespace InlineLocals

namespace Range

/-! ### The order of containment -/

theorem contains_refl (r : Range) : r.contains r = true :=
  contains_iff.mpr ⟨Nat.le_refl _, Nat.le_refl _⟩

theorem contains_trans {r s t : Range} (h : t.contains s = true) (h' : s.contains r = true) :
    t.contains r = true := by
  rw [contains_iff] at *
  exact ⟨Nat.le_trans h.1 h'.1, Nat.le_trans h'.2 h.2⟩

/-- Ranges that contain each other are equal. -/
theorem contains_antisymm {r s : Range} (h : r.contains s = true) (h' : s.contains r = true) :
    r = s := by
  rw [contains_iff] at h h'
  obtain ⟨pos, stop⟩ := r
  obtain ⟨pos', stop'⟩ := s
  exact congr (congrArg mk (Nat.le_antisymm h.1 h'.1)) (Nat.le_antisymm h'.2 h.2)

/-- What covers two ranges is their join. -/
theorem contains_cover?_iff {r s t u : Range} (h : r.cover? s = some u) :
    t.contains u = true ↔ t.contains r = true ∧ t.contains s = true := by
  obtain ⟨-, rfl⟩ := make?_eq_some_iff.mp h
  simp only [contains_iff, Nat.le_min, Nat.max_le]
  exact and_and_and_comm

/-! ### Spans -/

/-- The smallest range that contains the ranges of a list. -/
structure Spans (r : Range) (ranges : List Range) : Prop where
  contains : ∀ s ∈ ranges, r.contains s = true
  least : ∀ t : Range, (∀ s ∈ ranges, t.contains s = true) → t.contains r = true

theorem spans_singleton (r : Range) : r.Spans [r] where
  contains _ hs := List.mem_singleton.mp hs ▸ contains_refl r
  least _ h := h r (List.mem_singleton_self r)

/-- There is one least range that contains given ranges. -/
theorem Spans.unique {r s : Range} {ranges : List Range} (hr : r.Spans ranges)
    (hs : s.Spans ranges) : r = s :=
  contains_antisymm (hs.least r hr.contains) (hr.least s hs.contains)

/-- Two ranges that have been covered stand for one. -/
theorem Spans.cover {r s t u : Range} {ranges : List Range} (hu : r.cover? s = some u)
    (h : t.Spans (u :: ranges)) : t.Spans (r :: s :: ranges) := by
  -- The two lists have the same upper bounds.
  have hiff : ∀ k : Range, (∀ q ∈ r :: s :: ranges, k.contains q = true) ↔
      ∀ q ∈ u :: ranges, k.contains q = true := by
    intro k
    simp only [List.forall_mem_cons, contains_cover?_iff hu, and_assoc]
  exact ⟨(hiff t).mpr h.contains, fun k hk => h.least k ((hiff k).mp hk)⟩

/-- Covering one range after the other never fails on upright ranges, and ends with their span. -/
theorem exists_foldlM_cover? : ∀ (ranges : List Range) {r : Range}, r.Upright →
    ∃ t, ranges.foldlM cover? r = some t ∧ t.Upright ∧ t.Spans (r :: ranges)
  | [], r, hr => ⟨r, rfl, hr, spans_singleton r⟩
  | s :: ranges, r, hr => by
      have hu := cover?_of_upright (s := s) hr
      obtain ⟨t, ht, hup, hspans⟩ := exists_foldlM_cover? ranges (upright_of_cover? hu)
      refine ⟨t, ?_, hup, hspans.cover hu⟩
      rw [List.foldlM_cons, hu]
      exact ht

/-- **Upright ranges have a span**, and it is upright. -/
theorem exists_span? (origin : Nat) {ranges : List Range} (h : ∀ r ∈ ranges, r.Upright) :
    ∃ t, span? origin ranges = some t ∧ t.Upright ∧ (ranges ≠ [] → t.Spans ranges) := by
  cases ranges with
  | nil => exact ⟨empty origin, rfl, upright_empty origin, fun h => absurd rfl h⟩
  | cons r ranges =>
      obtain ⟨t, ht, hup, hspans⟩ := exists_foldlM_cover? ranges (h r List.mem_cons_self)
      exact ⟨t, ht, hup, fun _ => hspans⟩

/-- What covers ranges is their span, whether they are upright or not. -/
theorem spans_of_foldlM_cover? : ∀ (ranges : List Range) {r t : Range},
    ranges.foldlM cover? r = some t → t.Spans (r :: ranges)
  | [], r, t, h => by
      cases h
      exact spans_singleton _
  | s :: ranges, r, t, h => by
      rw [List.foldlM_cons, Option.bind_eq_bind, Option.bind_eq_some_iff] at h
      obtain ⟨u, hu, ht⟩ := h
      exact (spans_of_foldlM_cover? ranges ht).cover hu

/-- What covering ends with contains the ranges, and is the least range that does. -/
theorem spans_of_span? {origin : Nat} {ranges : List Range} {t : Range}
    (h : span? origin ranges = some t) (hne : ranges ≠ []) : t.Spans ranges := by
  cases ranges with
  | nil => exact absurd rfl hne
  | cons r ranges => exact spans_of_foldlM_cover? ranges h

/-! ### Order and grouping -/

/-- Only which ranges there are matters. -/
theorem Spans.of_mem_iff {r : Range} {ranges others : List Range} (h : r.Spans ranges)
    (hm : ∀ s, s ∈ others ↔ s ∈ ranges) : r.Spans others where
  contains s hs := h.contains s ((hm s).mp hs)
  least t ht := h.least t fun s hs => ht s ((hm s).mpr hs)

/-- Lists with the same upright ranges have the same span. -/
theorem span?_of_mem_iff {origin other : Nat} {ranges others : List Range} {t : Range}
    (h : span? origin ranges = some t) (hne : ranges ≠ []) (hup : ∀ r ∈ ranges, r.Upright)
    (hm : ∀ r, r ∈ others ↔ r ∈ ranges) : span? other others = some t := by
  have hup' : ∀ r ∈ others, r.Upright := fun r hr => hup r ((hm r).mp hr)
  have hne' : others ≠ [] := by
    obtain ⟨r, hr⟩ := List.exists_mem_of_ne_nil ranges hne
    exact List.ne_nil_of_mem ((hm r).mpr hr)
  obtain ⟨u, hu, -, hspans⟩ := exists_span? other hup'
  rw [hu, (hspans hne').unique ((spans_of_span? h hne).of_mem_iff hm)]

/-- The span depends on which ranges there are, not on their order or their number. -/
theorem span?_congr {origin : Nat} {ranges others : List Range}
    (hup : ∀ r ∈ ranges, r.Upright) (hm : ∀ r, r ∈ ranges ↔ r ∈ others) :
    span? origin others = span? origin ranges := by
  obtain ⟨t, ht, -⟩ := exists_span? origin hup
  by_cases hne : ranges = []
  · subst hne
    rw [List.eq_nil_iff_forall_not_mem.mpr fun r hr => absurd ((hm r).mpr hr) List.not_mem_nil]
  · rw [ht]
    exact span?_of_mem_iff ht hne hup fun r => (hm r).symm

/-- Spans of two lists are covered by the span of both. -/
theorem Spans.append {r s u : Range} {ranges others : List Range} (hu : r.cover? s = some u)
    (hr : r.Spans ranges) (hs : s.Spans others) : u.Spans (ranges ++ others) where
  contains q hq := by
    have hboth := (contains_cover?_iff hu).mp (contains_refl u)
    rcases List.mem_append.mp hq with hq | hq
    · exact contains_trans hboth.1 (hr.contains q hq)
    · exact contains_trans hboth.2 (hs.contains q hq)
  least t ht := by
    rw [List.forall_mem_append] at ht
    exact (contains_cover?_iff hu).mpr ⟨hr.least t ht.1, hs.least t ht.2⟩

/-- A way to cover ranges two at a time: one range, or two groups that are covered each by itself
before they are covered together. -/
inductive Grouping where
  | single (r : Range)
  | pair (left right : Grouping)

namespace Grouping

/-- The ranges that are covered, from left to right. -/
def ranges : Grouping → List Range
  | single r => [r]
  | pair left right => left.ranges ++ right.ranges

/-- Covers the ranges in the way of the grouping. -/
def cover? : Grouping → Option Range
  | single r => some r
  | pair left right => do (← left.cover?).cover? (← right.cover?)

/-- Every grouping comes to the span of all of its ranges. -/
theorem exists_cover? : ∀ g : Grouping, (∀ r ∈ g.ranges, r.Upright) →
    ∃ t, g.cover? = some t ∧ t.Upright ∧ t.Spans g.ranges
  | single r, h => ⟨r, rfl, h r (List.mem_singleton_self r), spans_singleton r⟩
  | pair left right, h => by
      rw [ranges, List.forall_mem_append] at h
      obtain ⟨l, hl, hupright, hleft⟩ := exists_cover? left h.1
      obtain ⟨r, hr, -, hright⟩ := exists_cover? right h.2
      have hu := cover?_of_upright (s := r) hupright
      refine ⟨_, ?_, upright_of_cover? hu, hleft.append hu hright⟩
      rw [cover?, hl, hr]
      exact hu

end Grouping

/-- **Spanning is a join.**  Upright ranges have a span, the least range that contains them all, and
it comes out in whatever order and grouping they are covered, and however often each occurs.  Two
ranges of any kind cannot be covered just when both of them end before either starts. -/
theorem span?_join :
    (∀ (origin : Nat) (ranges : List Range), ranges ≠ [] → (∀ r ∈ ranges, r.Upright) →
      ∃ t, span? origin ranges = some t ∧ (∀ r ∈ ranges, t.contains r = true) ∧
        (∀ u : Range, (∀ r ∈ ranges, u.contains r = true) → u.contains t = true) ∧
        (∀ (other : Nat) (others : List Range), (∀ r, r ∈ others ↔ r ∈ ranges) →
          span? other others = some t) ∧
        ∀ g : Grouping, (∀ r, r ∈ g.ranges ↔ r ∈ ranges) → g.cover? = some t) ∧
      ∀ r s : Range, (r.cover? s = none ↔ max r.stop s.stop < min r.pos s.pos) ∧
        r.cover? s = s.cover? r ∧
        ∀ t, r.cover? s = some t → t.contains r = true ∧ t.contains s = true := by
  refine ⟨fun origin ranges hne hup => ?_, fun r s => ⟨make?_eq_none_iff, cover?_comm r s, ?_⟩⟩
  · obtain ⟨t, ht, -, hspans⟩ := exists_span? origin hup
    have hspans := hspans hne
    refine ⟨t, ht, hspans.contains, hspans.least,
      fun _ _ hm => span?_of_mem_iff ht hne hup hm, fun g hg => ?_⟩
    obtain ⟨u, hu, -, hspans'⟩ := g.exists_cover? fun r hr => hup r ((hg r).mp hr)
    rw [hu, hspans'.unique (hspans.of_mem_iff hg)]
  · exact fun t ht => ⟨contains_left_of_cover? ht, contains_right_of_cover? ht⟩

/-- Two ranges and their gap: covered from the right, and one of them twice. -/
theorem span?_join_apart : ∃ t,
    span? 0 [⟨12, 20⟩, ⟨4, 9⟩] = some t ∧ t = ⟨4, 20⟩ ∧
      (Grouping.pair (.single ⟨4, 9⟩) (.pair (.single ⟨12, 20⟩) (.single ⟨4, 9⟩))).cover? =
        some t := by
  have hup : ∀ r ∈ [(⟨12, 20⟩ : Range), ⟨4, 9⟩], r.Upright := by decide
  obtain ⟨t, ht, -, -, -, hgroup⟩ := span?_join.1 0 [⟨12, 20⟩, ⟨4, 9⟩] (by decide) hup
  refine ⟨t, ht, ?_, hgroup _ fun r => ?_⟩
  · exact (Option.some.inj ht).symm
  · simpa [Grouping.ranges] using fun e => .inr e

end Range

end InlineLocals
