import InlineLocals.Proofs.Declaration.Bracketing
import InlineLocals.Proofs.Declaration.Outcome
import InlineLocals.Proofs.Declaration.Recording

/-!
# Declaration — Enlarging

A search of the same node in a part of a tree and in the whole tree.  The parents that the part
knows are parents in the whole, so a climb that finds its call in the part finds it in the whole,
and a climb that leaves the shape of a call at a node leaves it there in both.  The two differ only
when the climb ends at the root of the part: then the declaration is cut off from what is around it
(`Node.CutOff`), and the whole may know a call where the part knows none.

`Search.Performs` says what a search asks of any factory.  Two searches that ask for the same at
every site perform the same; where the part cuts a declaration off, the search in the whole has made
the same calls up to there and may go on (`Search.find_enlarged`).
-/

namespace InlineLocals

variable {σ τ S T : Type}

namespace Tree

/-! ### Calls in a part of a tree -/

section

variable {forms : List Form} {w : Workshop} {root part d : Node}
  (built : Workshop.ofForms forms = .ok w) (hr : w.Holds root) (hw : part.Within root)
  (hd : d.Within part)
include built hr hw hd

/-- Unless the way up ends at the root of the part, the whole tree gives the same answer. -/
theorem declaringCall_enlarged (h : ∀ pos, (ofRoot part).declaringCall d ≠ .error ⟨none, pos⟩) :
    (ofRoot root).declaringCall d = (ofRoot part).declaringCall d := by
  have hpart := hr.within hw
  have hheld := hpart.within hd
  cases hc : (ofRoot part).declaringCall d with
  | ok call =>
      have hclimbs := (declaringCall_eq_ok_iff_climbs built hpart hheld).mp hc
      exact (declaringCall_eq_ok_iff_climbs built hr hheld).mpr (hclimbs.mono hw)
  | error e =>
      obtain ⟨context, pos⟩ := e
      obtain ⟨hb, hpos⟩ := (declaringCall_eq_error_iff built hpart hheld).mp hc
      cases context with
      | none => exact absurd hc (h pos)
      | some kind =>
          exact (declaringCall_eq_error_iff built hr hheld).mpr ⟨hb.mono hw, hpos⟩

theorem cutOff_of_declaringCall {pos : Nat}
    (h : (ofRoot part).declaringCall d = .error ⟨none, pos⟩) :
    part.CutOff d ∧ pos = d.range.pos := by
  have hpart := hr.within hw
  obtain ⟨hb, hpos⟩ := (declaringCall_eq_error_iff built hpart (hpart.within hd)).mp h
  exact ⟨hb.cutOff hd, hpos⟩

end

end Tree

namespace Run

/-- What has been found when the run ends, one way or the other. -/
def found (x : Run σ S Unit) (p : Progress σ S) : Array S :=
  match x.run p with
  | .ok _ q => q.found
  | .error _ q => q.found

theorem Asks.found_eq {factory : SymbolFactory σ S} {x : Run σ S Unit} {calls : List Call}
    {r : Except ContextError Unit} (h : Asks factory x calls r) (p : Progress σ S) :
    x.found p = (p.after factory calls).found := by
  rw [found, h p]
  cases r <;> rfl

end Run

/-- More calls only append more answers. -/
theorem Progress.found_after_prefix (p : Progress σ S) (factory : SymbolFactory σ S)
    (calls more : List Call) :
    (p.after factory calls).found.toList <+: (p.after factory (calls ++ more)).found.toList := by
  rw [after_append]
  simp [after]

namespace Search

open Run (Asks)

/-! ### What a search performs -/

/-- Whatever the factory and the progress, a search of `n` makes these calls and ends so. -/
def Performs (s : Search σ S) (n : Node) (calls : List Call) (r : Except ContextError Unit) :
    Prop :=
  ∀ (τ T : Type) (factory : SymbolFactory τ T),
    Asks factory ((s.withFactory factory).find (some n)) calls r

/-- The reports of the nodes of a list ask every factory for the same. -/
theorem exists_asks_forM_report (s : Search σ S) (ns : List Node) :
    ∃ calls r, ∀ (τ T : Type) (factory : SymbolFactory τ T),
      Asks factory (forM ns (s.withFactory factory).report) calls r := by
  rcases s.requests_or_error ns with h | ⟨before, d, rest, e, rfl, h, he⟩
  · exact ⟨s.calls ns, .ok (), fun _ _ factory p => (s.withFactory factory).run_forM_report p h⟩
  · exact ⟨s.calls before, .error e, fun _ _ factory p =>
      (s.withFactory factory).run_forM_report_of_error rest p h he⟩

theorem calls_congr {s s' : Search σ S} {ns : List Node}
    (h : ∀ n ∈ ns, s'.request n = s.request n) : s'.calls ns = s.calls ns :=
  List.flatMap_congr fun n hn => by rw [h n hn]

section

variable {n : Node} {sites : List (List Nat × Node)} (hg : n.Grammatical)
  (hsites : n.SitesInOrder sites)
include hg hsites

/-- The sites of a node settle what a search of it does. -/
theorem find_eq_forM_report (s : Search σ S) :
    s.find (some n) = forM (sites.map Prod.snd) s.report := by
  obtain ⟨others, hothers, hv⟩ := s.exists_sites hg
  rw [find, hv, hothers.unique hsites]

theorem performs_of_requests (s : Search σ S)
    (h : ∀ m ∈ sites.map Prod.snd, ∃ call?, s.request m = .ok call?) :
    s.Performs n (s.calls (sites.map Prod.snd)) (.ok ()) := by
  intro τ T factory p
  rw [find_eq_forM_report hg hsites]
  exact (s.withFactory factory).run_forM_report p h

variable {before rest : List Node} {d : Node} (split : sites.map Prod.snd = before ++ d :: rest)
include split

theorem performs_of_error (s : Search σ S) {e : ContextError}
    (h : ∀ m ∈ before, ∃ call?, s.request m = .ok call?) (he : s.request d = .error e) :
    s.Performs n (s.calls before) (.error e) := by
  intro τ T factory p
  rw [find_eq_forM_report hg hsites, split]
  exact (s.withFactory factory).run_forM_report_of_error rest p h he

/-- A search whose first sites go through makes their calls, whatever comes after. -/
theorem exists_performs_append (s : Search σ S)
    (h : ∀ m ∈ before, ∃ call?, s.request m = .ok call?) :
    ∃ more r, s.Performs n (s.calls before ++ more) r := by
  obtain ⟨more, r, hmore⟩ := s.exists_asks_forM_report (d :: rest)
  refine ⟨more, r, fun τ T factory => ?_⟩
  rw [find_eq_forM_report hg hsites, split, List.forM_append]
  exact Asks.bind (fun p => (s.withFactory factory).run_forM_report p h) (hmore τ T factory)

end

/-! ### A part and the whole -/

/-- A search of `n` in a part of a tree ends at `d`, which is cut off from the call around it; the
sites before `d` go through. -/
structure EndsCutOff (s : Search σ S) (part n d : Node) (pos : Nat) : Prop where
  sites : ∃ sites before rest, n.SitesInOrder sites ∧
    sites.map Prod.snd = before ++ d :: rest ∧ ∀ m ∈ before, ∃ call?, s.request m = .ok call?
  kind : d.kind = .declarationExpression
  fails : s.tree.declaringCall d = .error ⟨none, pos⟩
  start : pos = d.range.pos
  cutOff : part.CutOff d

section

variable {forms : List Form} {w : Workshop} {root part n : Node}
  (built : Workshop.ofForms forms = .ok w) (hr : w.Holds root) (hw : part.Within root)
include built hr hw

/-- A site asks for the same in the whole tree, unless it is cut off in the part. -/
theorem request_enlarged (s : Search σ S) (ht : s.tree = .ofRoot part) {d : Node}
    (hd : d.Within part) (h : ∀ pos, s.request d ≠ .error ⟨none, pos⟩) :
    request { s with tree := .ofRoot root } d = s.request d := by
  unfold request at h ⊢
  split
  · rfl
  · rfl
  · next hs =>
    simp only [hs] at h
    have hcall := Tree.declaringCall_enlarged built hr hw hd fun pos he =>
      h pos (by rw [ht, he]; rfl)
    simp only [hcall, ht]

/-- **Searching in a larger tree.**  What a search in a part of a tree performs, the search in the
whole performs too, unless it ends because the way up from a declaration ends at the root of the
part.  Then the declaration is cut off from the call around it, and the search in the whole makes
the same calls and perhaps more, so all that was found in the part is found first. -/
theorem find_enlarged (s : Search σ S) (ht : s.tree = .ofRoot part) (hn : n.Within part) :
    let whole : Search σ S := { s with tree := .ofRoot root }
    ∃ calls r, s.Performs n calls r ∧
      ((∀ pos, r ≠ .error ⟨none, pos⟩) → whole.Performs n calls r) ∧
      ∀ pos, r = .error ⟨none, pos⟩ →
        (∃ d, s.EndsCutOff part n d pos) ∧
        (∃ more r', whole.Performs n (calls ++ more) r') ∧
        ∀ (τ T : Type) (factory : SymbolFactory τ T) (p : Progress τ T),
          (((s.withFactory factory).find (some n)).found p).toList <+:
            (((whole.withFactory factory).find (some n)).found p).toList := by
  intro whole
  have hpart := hr.within hw
  have hg := (hpart.within hn).grammatical built
  obtain ⟨sites, hsites, -⟩ := s.exists_sites hg
  have hsite {m : Node} (hm : m ∈ sites.map Prod.snd) := hsites.site hg hm
  have same {m : Node} (hm : m ∈ sites.map Prod.snd)
      (h : ∀ pos, s.request m ≠ .error ⟨none, pos⟩) : whole.request m = s.request m :=
    s.request_enlarged built hr hw ht ((hsite hm).1.trans hn) h
  have same_of_ok {m : Node} (hm : m ∈ sites.map Prod.snd)
      (h : ∃ call?, s.request m = .ok call?) : whole.request m = s.request m := by
    obtain ⟨call?, hc⟩ := h
    exact same hm fun pos he => by rw [hc] at he; cases he
  -- Either all sites go through in the part, or there is a first one `d` that does not.
  rcases s.requests_or_error (sites.map Prod.snd) with h | ⟨before, d, rest, e, split, h, he⟩
  · have hsame := fun m hm => same_of_ok hm (h m hm)
    refine ⟨_, _, s.performs_of_requests hg hsites h, fun _ => ?_, nofun⟩
    rw [← calls_congr hsame]
    exact whole.performs_of_requests hg hsites fun m hm => hsame m hm ▸ h m hm
  · have hd : d ∈ sites.map Prod.snd := by simp [split]
    have hb {m : Node} (hm : m ∈ before) : m ∈ sites.map Prod.snd := by simp [split, hm]
    have hsame := fun m hm => same_of_ok (hb hm) (h m hm)
    have hbefore : ∀ m ∈ before, ∃ call?, whole.request m = .ok call? :=
      fun m hm => hsame m hm ▸ h m hm
    have hsmall := s.performs_of_error hg hsites split h he
    refine ⟨_, _, hsmall, fun hfin => ?_, ?_⟩
    · rw [← calls_congr hsame]
      refine whole.performs_of_error hg hsites split hbefore ?_
      refine (same hd fun pos hpos => ?_).trans he
      rw [he] at hpos
      cases hpos
      exact hfin pos rfl
    · rintro pos ⟨⟩
      -- The way up from `d` has ended at the root of the part; the whole may go on from there.
      obtain ⟨more, r', hmore⟩ := whole.exists_performs_append hg hsites split hbefore
      rw [calls_congr hsame] at hmore
      obtain ⟨hk, hc⟩ := (s.request_eq_error_iff (hsite hd).2.1 (hsite hd).2.2).mp he
      obtain ⟨hcut, hpos⟩ :=
        Tree.cutOff_of_declaringCall built hr hw ((hsite hd).1.trans hn) (ht ▸ hc)
      have ends : s.EndsCutOff part n d pos :=
        ⟨⟨sites, before, rest, hsites, split, h⟩, hk, hc, hpos, hcut⟩
      refine ⟨⟨d, ends⟩, ⟨more, r', hmore⟩, fun τ T factory p => ?_⟩
      rw [(hsmall τ T factory).found_eq, (hmore τ T factory).found_eq]
      exact p.found_after_prefix factory _ _

end

/-- By itself the list of `this(out int x)` is searched without a call, and without a context in
the end.  In the tree of the call the search goes through. -/
theorem find_enlarged_sampleList : ∃ (w : Workshop) (x : Name),
    Workshop.ofForms [sampleForm] = .ok w ∧ w.Holds (sampleCall x) ∧
      (sampleList x).Within (sampleCall x) ∧
      let s : Search Unit Call := ⟨.ofRoot (sampleList x), Call.recorder, 0, none⟩
      let whole : Search Unit Call := { s with tree := .ofRoot (sampleCall x) }
      s.Performs (sampleList x) [] (.error ⟨none, 5⟩) ∧
        whole.Performs (sampleList x)
          [.out 0 none sampleType ⟨4, ⟨9, 10⟩, x⟩ (sampleCall x)] (.ok ()) ∧
        (∃ d, s.EndsCutOff (sampleList x) (sampleList x) d 5) ∧
        (∃ more r', whole.Performs (sampleList x) more r') ∧
        ∀ (τ T : Type) (factory : SymbolFactory τ T) (p : Progress τ T),
          (((s.withFactory factory).find (some (sampleList x))).found p).toList <+:
            (((whole.withFactory factory).find (some (sampleList x))).found p).toList := by
  obtain ⟨w, x, built, hv⟩ := exists_sampleCall
  have held : w.Holds (sampleCall x) := ⟨_, hv, .refl _⟩
  have hw : (sampleList x).Within (sampleCall x) := ⟨[1], rfl⟩
  have hlist := held.within hw
  have hg := hlist.grammatical built
  let s : Search Unit Call := ⟨.ofRoot (sampleList x), Call.recorder, 0, none⟩
  let whole : Search Unit Call := { s with tree := .ofRoot (sampleCall x) }
  have alone : s.Performs (sampleList x) [] (.error ⟨none, 5⟩) := by
    intro τ T factory p
    rw [find_sampleList _ hg, run_report, request_sampleDeclaration, withFactory,
      declaringCall_sampleList built hlist, Progress.after_nil]
    rfl
  have around : whole.Performs (sampleList x)
      [.out 0 none sampleType ⟨4, ⟨9, 10⟩, x⟩ (sampleCall x)] (.ok ()) := by
    have hcall : (Tree.ofRoot (sampleCall x)).declaringCall (sampleDeclaration x) =
        .ok (sampleCall x) := by
      rw [Tree.declaringCall_eq_ok_iff_climbs built held (hlist.within ⟨[0, 0], rfl⟩),
        Tree.climbs_callShape_iff built held]
      exact ⟨.refl _, hasArgument_sampleCall x⟩
    intro τ T factory p
    rw [find_sampleList _ hg, run_report, request_sampleDeclaration, withFactory, hcall]
    rfl
  obtain ⟨calls, r, hsmall, -, hcut⟩ := s.find_enlarged built held hw rfl (.refl _)
  obtain ⟨rfl, rfl⟩ :=
    (alone Unit Call Call.recorder).unique (hsmall Unit Call Call.recorder)
  obtain ⟨ends, larger, found⟩ := hcut 5 rfl
  exact ⟨w, x, built, held, hw, alone, around, ends, larger, found⟩

end Search

end InlineLocals
