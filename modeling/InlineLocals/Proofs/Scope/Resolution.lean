import InlineLocals.Proofs.Scope.Environment
import Mathlib.Data.List.Dedup

/-!
# Scope — Resolution

What a name means.  From a scope the way leads outward, from parent to parent
(`Environment.Outward`), and a name means the symbol that the first frame on it binds the name to
(`Environment.Means`).

A parent is made before its children, so the way outward goes down in numbers and ends.  So looking
up a name in the scopes of a lawful history does not depend on the limit of the walk
(`Mirrored.walk_limit`), and one scope answers by its own frame or else as its parent does
(`Mirrored.lookup_eq`).  What holds of all ways outward follows from this equation by induction on
the number of the scope (`resolved_after`).
-/

namespace InlineLocals

/-! ### The way outward -/

namespace Environment

/-- The way outward from a scope comes to another one, and the frames that it passes before have
the property. -/
inductive Outward (env : Environment) (P : Frame → Prop) : ScopeId → ScopeId → Prop
  | here {s : ScopeId} {f : Frame} (hf : env.frame? s = some f) : Outward env P s s
  | next {s p t : ScopeId} {f : Frame} (hf : env.frame? s = some f) (passed : P f)
      (hp : f.parent = some p) (way : Outward env P p t) : Outward env P s t

/-- The first frame on the way outward that binds the name binds it to the symbol. -/
def Means (env : Environment) (s : ScopeId) (name : Name) (x : LocalSymbol) : Prop :=
  ∃ t f, env.Outward (Frame.Unbound name) s t ∧ env.frame? t = some f ∧ f.symbol? name = some x

variable {env : Environment} {P : Frame → Prop} {s t : ScopeId} {f : Frame} {name : Name}
  {x : LocalSymbol}

theorem Outward.exists_frame (h : env.Outward P s t) : ∃ f, env.frame? s = some f := by
  cases h with
  | here hf | next hf _ _ _ => exact ⟨_, hf⟩

/-- A way outward stays where it is, or goes to the scope around and on from there. -/
theorem outward_iff (hf : env.frame? s = some f) : env.Outward P s t ↔
    s = t ∨ P f ∧ ∃ p, f.parent = some p ∧ env.Outward P p t := by
  constructor
  · intro h
    cases h with
    | here => exact .inl rfl
    | next hf' passed hp way =>
        cases hf.symm.trans hf'
        exact .inr ⟨passed, _, hp, way⟩
  · rintro (rfl | ⟨passed, p, hp, way⟩)
    · exact .here hf
    · exact .next hf passed hp way

/-- A name means the symbol that the frame has for it, or else what it means in the scope around. -/
theorem means_iff (hf : env.frame? s = some f) : env.Means s name x ↔
    f.symbol? name = some x ∨ f.Unbound name ∧ ∃ p, f.parent = some p ∧ env.Means p name x := by
  constructor
  · rintro ⟨t, g, way, hg, hx⟩
    rcases (outward_iff hf).mp way with rfl | ⟨unbound, p, hp, way⟩
    · cases hf.symm.trans hg
      exact .inl hx
    · exact .inr ⟨unbound, p, hp, t, g, way, hg, hx⟩
  · rintro (hx | ⟨unbound, p, hp, t, g, way, hg, hx⟩)
    · exact ⟨s, f, .here hf, hf, hx⟩
    · exact ⟨t, g, .next hf unbound hp way, hg, hx⟩

end Environment

open Environment (outward_iff means_iff)

/-- A table has one entry for each name of a symbol. -/
theorem Scope.Tabled.perm_keys {s : Scope} (h : s.Tabled) :
    s.locals.entries.keys.Perm (s.symbols.toList.map (·.name)).dedup := by
  rw [List.perm_ext_iff_of_nodup s.locals.entries.nodup_keys (List.nodup_dedup _)]
  intro name
  have hcontains : name ∈ s.locals.entries ↔ ∃ x ∈ s.symbols, x.name = name := h.contains_iff
  rw [Std.HashMap.mem_keys, List.mem_dedup, List.mem_map, hcontains]
  simp only [Array.mem_toList_iff]

namespace Scopes

/-! ### One scope of the walk -/

namespace Mirrored

variable {history : List Step} {k s : ScopeId} {f : Frame} {name : Name}

/-- There is no scope where there is no frame. -/
theorem get?_eq_none (h : Mirrored history) (hf : (Environment.after history).frame? k = none) :
    (after history).get? k = none := by
  rw [h.get?, hf]
  rfl

/-- A walk that starts where there is no scope finds nothing. -/
theorem walk_of_frame?_eq_none (h : Mirrored history)
    (hf : (Environment.after history).frame? k = none) (name : Name) (limit : Nat) :
    (after history).walk name limit (some k) = .unbound := by
  cases limit <;> simp [walk, h.get?_eq_none hf]

/-- One step of the walk: the frame has a symbol for the name, or the walk goes on around. -/
theorem walk_succ (h : Mirrored history) (hf : (Environment.after history).frame? k = some f)
    (name : Name) (limit : Nat) :
    (after history).walk name (limit + 1) (some k) =
      match f.symbol? name with
      | some x => .bound x
      | none => (after history).walk name limit f.parent := by
  obtain ⟨scope, hscope, hparent, hget⟩ := h.get?_eq hf
  cases hx : f.symbol? name with
  | some x => simp [walk, hscope, hget, hx]
  | none => simp [walk, hscope, hget, hx, hparent]

/-- Any limit does that is larger than the number of the scope. -/
theorem walk_limit (h : Mirrored history) (name : Name) {k limit limit' : Nat} (hk : k < limit)
    (hk' : k < limit') :
    (after history).walk name limit (some k) = (after history).walk name limit' (some k) := by
  induction k using Nat.strongRecOn generalizing limit limit' with
  | ind k ih =>
      cases hf : (Environment.after history).frame? k with
      | none => rw [h.walk_of_frame?_eq_none hf, h.walk_of_frame?_eq_none hf]
      | some f =>
          obtain ⟨m, rfl⟩ := Nat.exists_eq_add_one_of_ne_zero (Nat.ne_zero_of_lt hk)
          obtain ⟨m', rfl⟩ := Nat.exists_eq_add_one_of_ne_zero (Nat.ne_zero_of_lt hk')
          rw [h.walk_succ hf, h.walk_succ hf]
          cases hp : f.parent with
          | none => simp only [walk]
          | some p =>
              have hlt : p < k := h.parent_lt k f p hf hp
              rw [ih p hlt (Nat.lt_of_lt_of_le hlt (Nat.le_of_lt_succ hk))
                (Nat.lt_of_lt_of_le hlt (Nat.le_of_lt_succ hk'))]

theorem resolve_of_frame?_eq_none (h : Mirrored history)
    (hf : (Environment.after history).frame? s = none) (name : Name) :
    (after history).resolve s name = .unbound :=
  h.walk_of_frame?_eq_none hf name _

/-- A scope answers by its own frame, or else as its parent does. -/
theorem resolve_eq (h : Mirrored history) (hf : (Environment.after history).frame? s = some f)
    (name : Name) : (after history).resolve s name =
      match f.symbol? name, f.parent with
      | some x, _ => .bound x
      | none, none => .unbound
      | none, some p => (after history).resolve p name := by
  have hs : s < (after history).size := by
    rw [← h.size]
    exact (Array.getElem?_eq_some_iff.mp hf).1
  have hwalk := h.walk_succ hf name s
  rw [resolve, h.walk_limit name hs (Nat.lt_succ_self s), hwalk]
  cases f.symbol? name with
  | some x => rfl
  | none =>
      cases hp : f.parent with
      | none => simp only [walk]
      | some p =>
          have hlt : p < s := h.parent_lt s f p hf hp
          exact h.walk_limit name hlt (Nat.lt_trans hlt hs)

theorem lookup_of_frame?_eq_none (h : Mirrored history)
    (hf : (Environment.after history).frame? s = none) (name : Name) :
    (after history).lookup s name = none := by
  rw [lookup, h.resolve_of_frame?_eq_none hf]
  rfl

/-- The look-up in a scope is that of its frame, or else the look-up in the scope around. -/
theorem lookup_eq (h : Mirrored history) (hf : (Environment.after history).frame? s = some f)
    (name : Name) : (after history).lookup s name =
      (f.symbol? name).or (f.parent.bind fun p => (after history).lookup p name) := by
  rw [lookup, h.resolve_eq hf]
  cases f.symbol? name with
  | some x => rfl
  | none => cases f.parent <;> rfl

/-- What holds of a scope as soon as it holds of its parent holds of all scopes. -/
theorem outward_induction (h : Mirrored history) {motive : ScopeId → Prop}
    (missing : ∀ s, (Environment.after history).frame? s = none → motive s)
    (next : ∀ s f, (Environment.after history).frame? s = some f →
      (∀ p, f.parent = some p → motive p) → motive s) (s : ScopeId) : motive s := by
  induction s using Nat.strongRecOn with
  | ind s ih =>
      cases hf : (Environment.after history).frame? s with
      | none => exact missing s hf
      | some f => exact next s f hf fun p hp => ih p (h.parent_lt s f p hf hp)

/-! ### What is found -/

/-- A lawful history makes no circles, so every walk comes to an end. -/
theorem resolve_ne_endless (h : Mirrored history) (s : ScopeId) (name : Name) :
    (after history).resolve s name ≠ .endless := by
  induction s using h.outward_induction with
  | missing s hf => simp [h.resolve_of_frame?_eq_none hf]
  | next s f hf ih =>
      rw [h.resolve_eq hf]
      cases f.symbol? name with
      | some x => simp
      | none =>
          cases hp : f.parent with
          | none => simp
          | some p => exact ih p hp

/-- What is found is what the name means in the environment. -/
theorem lookup_eq_some_iff (h : Mirrored history) (s : ScopeId) (name : Name) (x : LocalSymbol) :
    (after history).lookup s name = some x ↔ (Environment.after history).Means s name x := by
  induction s using h.outward_induction with
  | missing s hf =>
      have hnot : ¬ (Environment.after history).Means s name x := by
        rintro ⟨t, g, way, -⟩
        obtain ⟨f, hf'⟩ := way.exists_frame
        cases hf.symm.trans hf'
      simp [h.lookup_of_frame?_eq_none hf, hnot]
  | next s f hf ih =>
      rw [h.lookup_eq hf, means_iff hf, Option.or_eq_some_iff, Option.bind_eq_some_iff]
      refine or_congr_right (and_congr_right fun _ => exists_congr fun p => ?_)
      exact and_congr_right fun hp => ih p hp

/-- Nothing is found exactly when no scope on the way outward has the name. -/
theorem lookup_eq_none_iff (h : Mirrored history) (s : ScopeId) (name : Name) :
    (after history).lookup s name = none ↔ ∀ t f,
      (Environment.after history).Outward (fun _ => True) s t →
        (Environment.after history).frame? t = some f → f.Unbound name := by
  induction s using h.outward_induction with
  | missing s hf =>
      refine iff_of_true (h.lookup_of_frame?_eq_none hf name) fun t g way _ => ?_
      obtain ⟨f, hf'⟩ := way.exists_frame
      cases hf.symm.trans hf'
  | next s f hf ih =>
      rw [h.lookup_eq hf, Option.or_eq_none_iff, Option.bind_eq_none_iff]
      constructor
      · rintro ⟨unbound, outer⟩ t g way hg
        -- The scope on the way is `s` itself, or it lies outward from the parent.
        rcases (outward_iff hf).mp way with rfl | ⟨-, p, hp, way⟩
        · cases hf.symm.trans hg
          exact unbound
        · exact (ih p hp).mp (outer p hp) t g way hg
      · intro hall
        refine ⟨hall s f (.here hf) hf, fun p hp => (ih p hp).mpr fun t g way hg => ?_⟩
        exact hall t g (.next hf trivial hp way) hg

/-! ### What a step changes -/

/-- A new scope changes nothing for those that there are. -/
theorem lookup_push (h : Mirrored history) {parent : Option ScopeId}
    (h' : Mirrored (history ++ [.push parent])) {s : ScopeId} (hs : s < (after history).size)
    (name : Name) :
    (after (history ++ [.push parent])).lookup s name = (after history).lookup s name := by
  revert hs
  induction s using h.outward_induction with
  | missing s hf =>
      intro hs
      exact absurd (h.size.symm ▸ hs) (Nat.not_lt_of_le (Array.getElem?_eq_none_iff.mp hf))
  | next s f hf ih =>
      intro hs
      have hf' : (Environment.after (history ++ [.push parent])).frame? s = some f := by
        rw [Environment.frame?_after_push, h.size, if_neg (Nat.ne_of_lt hs), hf]
      rw [h.lookup_eq hf, h'.lookup_eq hf']
      cases hp : f.parent with
      | none => rfl
      | some p =>
          have hlt : p < s := h.parent_lt s f p hf hp
          exact congrArg (Option.or _) (ih p hp (Nat.lt_trans hlt hs))

open Classical in
/-- A declaration changes what its name means from where the way outward comes to its scope and
the name is not bound before. -/
theorem lookup_declare (h : Mirrored history) {t : ScopeId} {x : LocalSymbol}
    (h' : Mirrored (history ++ [.declare t x])) (s : ScopeId) (name : Name) :
    (after (history ++ [.declare t x])).lookup s name =
      if name = x.name ∧ (Environment.after history).Outward (Frame.Unbound name) s t then some x
      else (after history).lookup s name := by
  have hframe (s : ScopeId) := Environment.frame?_after_declare history t s x
  induction s using h.outward_induction with
  | missing s hf =>
      have hf' : (Environment.after (history ++ [.declare t x])).frame? s = none := by
        rw [hframe, hf, Option.map_none, ite_self]
      have hno : ¬ (Environment.after history).Outward (Frame.Unbound name) s t := fun way => by
        obtain ⟨f, hf'⟩ := way.exists_frame
        cases hf.symm.trans hf'
      rw [h'.lookup_of_frame?_eq_none hf', h.lookup_of_frame?_eq_none hf, if_neg fun e => hno e.2]
  | next s f hf ih =>
      have hway := outward_iff (P := Frame.Unbound name) (t := t) hf
      by_cases hts : t = s
      · subst hts
        have hf' : (Environment.after (history ++ [.declare t x])).frame? t =
            some (f.declare x) := by
          rw [hframe, if_pos rfl, hf, Option.map_some]
        rw [h'.lookup_eq hf', h.lookup_eq hf, Frame.declare]
        by_cases hn : name = x.name
        · rw [if_pos ⟨hn, .here hf⟩]
          simp [hn]
        · simp only [hn, false_and, if_false] at ih ⊢
          cases hp : f.parent with
          | none => rfl
          | some p => exact congrArg (Option.or _) (ih p hp)
      · have hf' : (Environment.after (history ++ [.declare t x])).frame? s = some f := by
          rw [hframe, if_neg hts, hf]
        rw [h'.lookup_eq hf', h.lookup_eq hf]
        cases hx : f.symbol? name with
        | some y =>
            -- The name is bound here, so what is declared further out does not show.
            simp [hway, Ne.symm hts, Frame.Unbound, hx]
        | none =>
            cases hp : f.parent with
            | none => simp [hway, Ne.symm hts, hp]
            | some p => simpa [hway, Ne.symm hts, Frame.Unbound, hx, hp] using ih p hp

end Mirrored

/-! ### Lawful histories -/

open Classical in
/-- What scopes find after a history. -/
structure Resolved (history : List Step) : Prop where
  ends : ∀ s name, (after history).resolve s name ≠ .endless
  lookup : ∀ s name x, (after history).lookup s name = some x ↔
    (Environment.after history).Means s name x
  /-- Nothing is found where there is no scope, or none on the way outward binds the name. -/
  nothing : ∀ s name, (after history).lookup s name = none ↔ (after history).get? s = none ∨
    ∀ t f, (Environment.after history).Outward (fun _ => True) s t →
      (Environment.after history).frame? t = some f → f.Unbound name
  push : ∀ parent, Lawful (history ++ [.push parent]) → ∀ s < (after history).size, ∀ name,
    (after (history ++ [.push parent])).lookup s name = (after history).lookup s name
  /-- A declaration changes what its own name means, and only from scopes from where the way
  outward comes to its scope before the name is bound. -/
  declare : ∀ t x, Lawful (history ++ [.declare t x]) → ∀ s name,
    (after (history ++ [.declare t x])).lookup s name =
      if name = x.name ∧ (Environment.after history).Outward (Frame.Unbound name) s t then some x
      else (after history).lookup s name
  symbols : ∀ k scope, (after history).get? k = some scope →
    scope.symbols.toList = declared k history
  /-- The table of a scope has one entry for each name that is declared in it. -/
  names : ∀ k scope, (after history).get? k = some scope →
    scope.locals.entries.keys.Perm ((declared k history).map (·.name)).dedup ∧
      scope.locals.size = ((declared k history).map (·.name)).dedup.length

/-- **Looking up a name finds what it means**, after every lawful history. -/
theorem resolved_after {history : List Step} (lawful : Lawful history) : Resolved history := by
  have h := lawful.mirrored
  have hholds (k : ScopeId) (scope : Scope) (hk : (after history).get? k = some scope) :
      scope.symbols.toList = declared k history ∧ scope.Tabled := by
    rw [h.get?] at hk
    obtain ⟨f, -, rfl⟩ := Option.map_eq_some_iff.mp hk
    exact ⟨Scope.symbols_holding _ _ _, Scope.tabled_holding _ _ _⟩
  -- Where there is no scope there is no way outward, so nothing is found.
  have hmissing (s : ScopeId) (name : Name) (hs : (after history).get? s = none) :
      (after history).lookup s name = none := by
    refine (h.lookup_eq_none_iff s name).mpr fun t g way _ => ?_
    obtain ⟨f, hf⟩ := way.exists_frame
    obtain ⟨scope, hscope, -⟩ := h.get?_eq hf
    cases hs.symm.trans hscope
  exact {
    ends := h.resolve_ne_endless
    lookup := h.lookup_eq_some_iff
    nothing := fun s name => by
      rw [← h.lookup_eq_none_iff]
      exact (or_iff_right_of_imp (hmissing s name)).symm
    push := fun parent lawful' s hs name => h.lookup_push lawful'.mirrored hs name
    declare := fun t x lawful' s name => h.lookup_declare lawful'.mirrored s name
    symbols := fun k scope hk => (hholds k scope hk).1
    names := fun k scope hk => by
      obtain ⟨hsymbols, htabled⟩ := hholds k scope hk
      have hperm := htabled.perm_keys
      rw [hsymbols] at hperm
      exact ⟨hperm, Std.HashMap.length_keys.symm.trans hperm.length_eq⟩ }

/-! ### A scope within a scope, and a name declared twice -/

def sampleSymbol (id : SymbolId) (name : Name) : LocalSymbol where
  id := id
  name := name
  kind := .regularVariable
  scope := 0
  enclosing := none
  type := none
  implicit := true
  range := ⟨0, 1⟩
  declaringCall := none

/-- Two scopes, one within the other.  A name is declared twice in the outer one, the second time
after another name in the inner one. -/
def sampleHistory : List Step :=
  [.push none, .push (some 0), .declare 0 (sampleSymbol 0 ⟨0⟩), .declare 1 (sampleSymbol 1 ⟨1⟩),
    .declare 0 (sampleSymbol 2 ⟨0⟩)]

/-- In the inner scope the name means what was declared last in the outer one, where the name of
the inner scope means nothing. -/
theorem resolved_after_sampleHistory : Lawful sampleHistory ∧
    (after sampleHistory).lookup 1 ⟨0⟩ = some (sampleSymbol 2 ⟨0⟩) ∧
      (after sampleHistory).lookup 0 ⟨1⟩ = none := by
  have lawful : Lawful sampleHistory := by
    show Lawful ([] ++ [.push none] ++ [.push (some 0)] ++ [.declare 0 (sampleSymbol 0 ⟨0⟩)] ++
      [.declare 1 (sampleSymbol 1 ⟨1⟩)] ++ [.declare 0 (sampleSymbol 2 ⟨0⟩)])
    refine .declare (.declare (.declare (.push (.push .nil ?_) ?_) ?_ ?_) ?_ ?_) ?_ ?_
    · nofun
    · rintro p ⟨⟩
      decide
    · decide
    · decide
    · decide
    · decide
    · decide
    · decide
  have h := resolved_after lawful
  refine ⟨lawful, (h.lookup _ _ _).mpr ?_, (h.nothing _ _).mpr (.inr ?_)⟩
  · exact ⟨0, _, .next rfl rfl rfl (.here rfl), rfl, rfl⟩
  · intro t f way hf
    rcases (outward_iff rfl).mp way with rfl | ⟨-, p, hp, -⟩
    · cases hf
      rfl
    · cases hp

end Scopes

end InlineLocals
