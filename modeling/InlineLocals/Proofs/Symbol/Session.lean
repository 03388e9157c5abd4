import InlineLocals.Proofs.Declaration.CallSite
import InlineLocals.Proofs.Declaration.Lockstep
import InlineLocals.Proofs.Scope.Home
import InlineLocals.Proofs.Scope.Invariant
import InlineLocals.Proofs.Syntax.Script

/-!
# Symbol — Session

Symbols that are made one after the other, from trees that are built in the meantime.  A session
builds forms, interns texts, searches for variables and makes variables of declaration statements
(`Event`); all of it shares one table of names, one counter and one list of symbols.

`LocalSymbol.Faithful` says what a symbol tells of the node that declares its variable, by the text
that was written (`Syntax.Script`).  It is a fact of the moment at which the symbol is made, and
nothing that happens later takes it back (`Faithful.mono`): a script only gets longer, and names
keep their texts.  `Session.symbols_faithful` says it of all symbols of a session.
-/

namespace InlineLocals

open LocalSymbol (number)
open Run (AddsOnly)
open Search (sampleTest sampleVar)

/-! ### Events -/

/-- What happens in a session. -/
inductive Event where
  /-- A form is built and put on the shelf. -/
  | build (form : Form)
  /-- A text is interned. -/
  | intern (text : String)
  /-- A search for variables in a tree. -/
  | search (tree : Tree) (scope : ScopeId) (enclosing : Option ScopeId) (entry : Entry)
  /-- A variable of a declaration statement is made. -/
  | declare (scope : ScopeId) (type declarator : Node)

/-- The event makes symbols. -/
def Event.isCall : Event → Bool
  | search .. | declare .. => true
  | build _ | intern _ => false

/-- The productions that the event applies. -/
def Event.productions : Event → List Production
  | build form => form.productions
  | _ => []

/-- What is written in the course of a session. -/
def Event.script (events : List Event) : List Spelling :=
  Production.script (events.flatMap productions)

/-- The nodes from which a search begins. -/
def Entry.starts : Entry → List Node
  | node start => start.toList
  | list expressions => expressions

/-- The scope around that a search tells for variables in arguments. -/
def Entry.told : Entry → Option ScopeId → Option ScopeId
  | node _, enclosing => enclosing
  | list _, _ => none

/-- The events lead from an empty workshop and a factory without symbols to the workshop and to the
progress.  What is searched or declared is held by the workshop at that time; a search may fail. -/
inductive Session : List Event → Workshop → Progress SymbolId LocalSymbol → Prop where
  | start (names : Names) : Session [] { names } ⟨#[], 0⟩
  | build {events : List Event} {w w' : Workshop} {p : Progress SymbolId LocalSymbol} {form : Form}
      (h : Session events w p) (run : (Workshop.shelve [form]).run w = .ok ((), w')) :
      Session (events ++ [.build form]) w' p
  | intern {events : List Event} {w : Workshop} {p : Progress SymbolId LocalSymbol}
      (h : Session events w p) (text : String) :
      Session (events ++ [.intern text]) { w with names := (w.names.intern text).2 } p
  | search {events : List Event} {w : Workshop} {p q : Progress SymbolId LocalSymbol} {tree : Tree}
      {scope : ScopeId} {enclosing : Option ScopeId} {entry : Entry}
      {r : Except ContextError Unit} (h : Session events w p)
      (held : ∀ n ∈ entry.starts, w.Holds n)
      (run : (Search.enter ⟨tree, LocalSymbol.factory w.names, scope, enclosing⟩ entry).run p =
        q.ending r) :
      Session (events ++ [.search tree scope enclosing entry]) w q
  | declare {events : List Event} {w : Workshop} {p q : Progress SymbolId LocalSymbol}
      {scope : ScopeId} {type declarator : Node} {i : Identifier} (h : Session events w p)
      (hty : w.Holds type) (hkt : type.kind.isType = true) (hd : w.Holds declarator)
      (hkd : declarator.kind = .variableDeclarator) (hi : declarator.identifier? = some i)
      (run : (Search.append (LocalSymbol.regular w.names scope type i)).run p = .ok () q) :
      Session (events ++ [.declare scope type declarator]) w q

theorem Event.script_append (events : List Event) (e : Event) :
    script (events ++ [e]) = script events ++ Production.script e.productions := by
  rw [script, List.flatMap_append, List.flatMap_singleton, Production.script_append]
  rfl

theorem Event.script_append_of_productions_eq_nil (events : List Event) {e : Event}
    (h : e.productions = []) : script (events ++ [e]) = script events := by
  rw [script_append, h]
  exact List.append_nil _

/-! ### What a symbol tells -/

/-- The node is written as the plain name `var`. -/
def Node.WrittenVar (script : List Spelling) (n : Node) : Prop :=
  n.kind = .identifierName ∧
    ∃ i, n.identifier? = some i ∧ Spelling.StandsAt script i.range (.identifier "var")

/-- The symbol tells of the variable that `n` declares, with the declared type `type?`, for a search
or a declaration in `scope` that tells `told` as the scope around. -/
structure LocalSymbol.Faithful (script : List Spelling) (names : Names) (scope : ScopeId)
    (told : Option ScopeId) (type? : Option Node) (n : Node) (x : LocalSymbol) : Prop where
  declares : ∃ i, n.Declares i x
  /-- The name resolves to the text that stands at the range. -/
  text : ∃ text, Spelling.StandsAt script x.range (.identifier text) ∧
    names.text? x.name = some text
  type : x.type = type?.map Node.id
  /-- The declared type has been written. -/
  written : ∀ type ∈ type?, ∀ i, type.identifier? = some i →
    ∃ s, Spelling.StandsAt script i.range s
  implicit : x.implicit = true ↔ ∀ type ∈ type?, type.WrittenVar script
  /-- The scope around and the call are told of variables in arguments only. -/
  placed : x.Placed scope told

namespace LocalSymbol.Faithful

variable {script : List Spelling} {names names' : Names} {scope : ScopeId}
  {told : Option ScopeId} {type? : Option Node} {n : Node} {x : LocalSymbol}

theorem withId (h : Faithful script names scope told type? n x) (id : SymbolId) :
    Faithful script names scope told type? n (x.withId id) where
  declares := h.declares.imp fun _ hi => hi.withId id
  text := h.text
  type := h.type
  written := h.written
  implicit := h.implicit
  placed := h.placed.withId id

/-- What is written and interned later does not matter. -/
theorem mono (h : Faithful script names scope told type? n x) (more : List Spelling)
    (hn : names.Grows names') : Faithful (script ++ more) names' scope told type? n x where
  declares := h.declares
  text := h.text.imp fun _ ht => ⟨ht.1.append more, hn _ _ ht.2⟩
  type := h.type
  written type ht i hi := (h.written type ht i hi).imp fun _ hs => hs.append more
  implicit := by
    refine h.implicit.trans (forall₂_congr fun type ht => and_congr_right fun _ => ?_)
    refine exists_congr fun i => and_congr_right fun hi => ⟨fun hs => hs.append more, fun hs => ?_⟩
    -- The type was written before, so what stands at its range stood there then.
    obtain ⟨s, hold⟩ := h.written type ht i hi
    rwa [(hold.append more).unique hs] at hold
  placed := h.placed

end LocalSymbol.Faithful

/-- The symbol is faithful to a site at or below `start`.  It tells a type, unless the site is of a
kind of patterns that names none. -/
def LocalSymbol.FoundIn (script : List Spelling) (names : Names) (scope : ScopeId)
    (told : Option ScopeId) (start : Node) (x : LocalSymbol) : Prop :=
  ∃ n : Node, n.Within start ∧ n.isSite = true ∧
    x.Faithful script names scope told n.type? n ∧
    (x.type = none ↔ n.kind = .varPattern ∨ n.kind = .recursivePattern ∧ n.type? = none)

theorem LocalSymbol.FoundIn.withId {script : List Spelling} {names : Names} {scope : ScopeId}
    {told : Option ScopeId} {start : Node} {x : LocalSymbol}
    (h : x.FoundIn script names scope told start) (id : SymbolId) :
    (x.withId id).FoundIn script names scope told start := by
  obtain ⟨n, hw, hs, hfaithful, htype⟩ := h
  exact ⟨n, hw, hs, hfaithful.withId id, htype⟩

/-- The symbols are what the event makes: a search makes them for sites at or below the nodes it
begins with, a declaration makes one for its declarator, and no other event makes any. -/
def Event.Makes (script : List Spelling) (names : Names) : Event → List LocalSymbol → Prop
  | build _, xs | intern _, xs => xs = []
  | search _ scope enclosing entry, xs => ∀ x ∈ xs, ∃ start ∈ entry.starts,
      x.FoundIn script names scope (entry.told enclosing) start
  | declare scope type declarator, xs =>
      ∃ x, xs = [x] ∧ x.Faithful script names scope none (some type) declarator

theorem Event.Makes.mono {script : List Spelling} {names names' : Names} {e : Event}
    {xs : List LocalSymbol} (h : e.Makes script names xs) (more : List Spelling)
    (hn : names.Grows names') : e.Makes (script ++ more) names' xs := by
  cases e with
  | build form | intern text => exact h
  | search tree scope enclosing entry =>
      intro x hx
      obtain ⟨start, hstart, n, hw, hs, hfaithful, htype⟩ := h x hx
      exact ⟨start, hstart, n, hw, hs, hfaithful.mono more hn, htype⟩
  | declare scope type declarator =>
      obtain ⟨x, hx, hfaithful⟩ := h
      exact ⟨x, hx, hfaithful.mono more hn⟩

/-! ### Symbols of a request -/

section

variable {script : List Spelling} {w : Workshop}
  (standing : w.Scripted script (w.pieces.flatMap Piece.leaves))
include standing

/-- An identifier of the workshop stands in the script, and its name resolves to the text there. -/
theorem Workshop.Scripted.exists_text {n : Node} {i : Identifier} (hn : w.Holds n)
    (hi : .identifier i ∈ n.leaves) : ∃ text,
      Spelling.StandsAt script i.range (.identifier text) ∧ w.names.text? i.name = some text := by
  obtain ⟨s, hs, hspells⟩ := standing.stands _ (hn.mem_leaves hi)
  cases hspells with
  | identifier ht => exact ⟨_, hs, ht⟩

/-- A type is taken for `var` when it was written so. -/
theorem LocalSymbol.isVar_iff_writtenVar {type : Node} (ht : w.Holds type) :
    isVar w.names type = true ↔ type.WrittenVar script := by
  rw [isVar_iff, Node.WrittenVar]
  refine and_congr_right fun _ => ?_
  rw [Option.map_eq_some_iff]
  refine exists_congr fun i => and_congr_right fun hi => ?_
  obtain ⟨text, hs, htext⟩ := standing.exists_text ht (Node.mem_leaves_of_identifier? hi)
  rw [htext]
  constructor
  · rintro ⟨⟩
    exact hs
  · intro hvar
    cases hs.unique hvar
    rfl

/-- A symbol of a node in the workshop is faithful when its type is read off the declared one. -/
theorem LocalSymbol.faithful_of_declares {scope : ScopeId} {told : Option ScopeId}
    {type? : Option Node} {n : Node} {x : LocalSymbol} (hn : w.Holds n)
    (hty : ∀ type ∈ type?, w.Holds type) (hd : ∃ i, n.Declares i x)
    (htype : x.type = type?.map Node.id)
    (himplicit : x.implicit = (type?.map (isVar w.names)).getD true)
    (hp : x.Placed scope told) : x.Faithful script w.names scope told type? n where
  declares := hd
  text := by
    obtain ⟨i, hi⟩ := hd
    rw [hi.range, hi.name]
    exact standing.exists_text hn hi.holds
  type := htype
  written type ht i hi := by
    obtain ⟨text, hs, -⟩ :=
      standing.exists_text (hty type ht) (Node.mem_leaves_of_identifier? hi)
    exact ⟨_, hs⟩
  implicit := by
    rw [himplicit]
    cases type? with
    | none => simp
    | some type => simpa using isVar_iff_writtenVar standing (hty type rfl)
  placed := hp

end

/-- A pattern `var x` names no type. -/
theorem Node.Shaped.type?_varPattern {n : Node} (h : n.Shaped) (hk : n.kind = .varPattern) :
    n.type? = none := by
  rw [type?, h.varPattern hk]
  rfl

namespace Search

variable {s : Locals} {n : Node} {call : Call}

/-- The type that a symbol tells is the declared type of the site. -/
theorem Requests.symbol_type (h : s.Requests n call) (hn : n.Shaped) (names : Names) :
    (call.symbol names).type = n.type?.map Node.id ∧
      (call.symbol names).implicit = (n.type?.map (LocalSymbol.isVar names)).getD true := by
  cases h with
  | declarationPattern _ ht _ | declarationExpression _ ht _ _ =>
      rw [ht]
      exact ⟨rfl, rfl⟩
  | varPattern hk _ =>
      rw [hn.type?_varPattern hk]
      exact ⟨rfl, rfl⟩
  | recursivePattern _ _ => exact ⟨rfl, rfl⟩

/-- A site names a type, unless it is of one of two kinds of patterns. -/
theorem Requests.type?_eq_none_iff (h : s.Requests n call) (hn : n.Shaped) :
    n.type? = none ↔ n.kind = .varPattern ∨ n.kind = .recursivePattern ∧ n.type? = none := by
  cases h with
  | declarationPattern hk ht _ | declarationExpression hk ht _ _ => simp [hk, ht]
  | varPattern hk _ => simp [hk, hn.type?_varPattern hk]
  | recursivePattern hk _ => simp [hk]

/-- The report of a site makes a symbol that is faithful to it. -/
theorem addsOnly_report_faithful {script : List Spelling} {w : Workshop}
    (standing : w.Scripted script (w.pieces.flatMap Piece.leaves))
    (hf : s.factory = LocalSymbol.factory w.names) {start : Node} (hstart : w.Holds start)
    (hw : n.Within start) (hn : n.Shaped) (hs : n.isSite = true) :
    AddsOnly (LocalSymbol.FoundIn script w.names s.scope s.enclosing start) (s.report n) := by
  refine addsOnly_report hf fun call hcall => ?_
  have hreq := s.requests_of_request hn hcall
  obtain ⟨htype, himplicit⟩ := hreq.symbol_type hn w.names
  have hheld := hstart.within hw
  have hty : ∀ type ∈ n.type?, w.Holds type := fun type ht =>
    hheld.child (List.mem_of_find?_eq_some ht)
  refine ⟨n, hw, hs, ?_, ?_⟩
  · exact LocalSymbol.faithful_of_declares standing hheld hty (hreq.declares w.names) htype
      himplicit (placed_symbol_of_request hcall)
  · rw [htype, Option.map_eq_none_iff]
    exact hreq.type?_eq_none_iff hn

/-- A search makes symbols that are faithful to sites below the nodes it begins with. -/
theorem addsOnly_enter_faithful {script : List Spelling} {w : Workshop}
    (standing : w.Scripted script (w.pieces.flatMap Piece.leaves))
    (grammatical : ∀ n, w.Holds n → n.Grammatical) (tree : Tree) (scope : ScopeId)
    (enclosing : Option ScopeId) {entry : Entry} (held : ∀ n ∈ entry.starts, w.Holds n) :
    AddsOnly (fun x => ∃ start ∈ entry.starts,
      x.FoundIn script w.names scope (entry.told enclosing) start)
      (enter ⟨tree, LocalSymbol.factory w.names, scope, enclosing⟩ entry) := by
  have visit (told : Option ScopeId) {start : Node} (hstart : w.Holds start) :
      AddsOnly (LocalSymbol.FoundIn script w.names scope told start)
        (Search.visit ⟨tree, LocalSymbol.factory w.names, scope, told⟩ start) := by
    have hg := grammatical start hstart
    obtain ⟨sites, hsites, hv⟩ :=
      exists_sites ⟨tree, LocalSymbol.factory w.names, scope, told⟩ hg
    rw [hv]
    refine AddsOnly.forM fun m hm => ?_
    obtain ⟨hw, hsh, hs⟩ := hsites.site hg hm
    exact addsOnly_report_faithful standing rfl hstart hw hsh hs
  -- In a list no scope encloses the expressions, whatever the search was told.
  cases entry with
  | node start =>
      cases start with
      | none => exact .nothing
      | some start =>
          refine (visit enclosing (held start (by simp [Entry.starts]))).mono fun x hx => ?_
          exact ⟨start, by simp [Entry.starts], hx⟩
  | list expressions =>
      change AddsOnly _ (visitAll ⟨tree, LocalSymbol.factory w.names, scope, none⟩ expressions)
      rw [visitAll_eq_forM]
      exact .forM fun e he => (visit none (held e he)).mono fun x hx => ⟨e, he, hx⟩

end Search

/-! ### Sessions -/

/-- The symbols are numbered from zero on, and the factory counts them. -/
def Progress.Gapless (p : Progress SymbolId LocalSymbol) : Prop :=
  p.found.toList.map LocalSymbol.id = List.range p.state

namespace Progress.Gapless

variable {p : Progress SymbolId LocalSymbol}

theorem adding (h : p.Gapless) (xs : List LocalSymbol) : (p.adding xs).Gapless := by
  have hlist : (p.adding xs).found.toList = p.found.toList ++ number p.state xs := by
    simp [Progress.adding]
  have hstate : (p.adding xs).state = p.state + xs.length := rfl
  rw [Gapless, hlist, hstate, List.map_append, h, LocalSymbol.map_id_number, List.range_eq_range',
    List.range_eq_range', ← List.range'_append_1, Nat.zero_add]

theorem state_eq (h : p.Gapless) : p.state = p.found.size := by
  simpa using (congrArg List.length h).symm

theorem id_eq (h : p.Gapless) {k : Nat} {x : LocalSymbol} (hx : p.found[k]? = some x) :
    x.id = k := by
  have hk := congrArg (·[k]?) h
  simp only [List.getElem?_map, Array.getElem?_toList, hx, Option.map_some] at hk
  obtain ⟨_, hk⟩ := List.getElem?_eq_some_iff.mp hk.symm
  simpa using hk.symm

end Progress.Gapless

namespace Session

variable {events : List Event} {w : Workshop} {p : Progress SymbolId LocalSymbol}

/-- All that stands in the workshop stands in the script. -/
theorem scripted (h : Session events w p) :
    w.Scripted (Event.script events) (w.pieces.flatMap Piece.leaves) := by
  induction h with
  | start names => exact ⟨rfl, nofun⟩
  | @build events w w' p form _ run ih =>
      have hshelve := (scripted_chronicle.shelve (events.flatMap Event.productions)
        (fun _ _ _ _ _ _ _ => trivial) ih).of_ok run
      rw [Form.productionsAll, Form.productionsAll, List.append_nil,
        Production.script_append] at hshelve
      rw [Event.script_append]
      exact hshelve
  | @intern events w p _ text ih =>
      rw [Event.script_append_of_productions_eq_nil events rfl]
      exact ih.advance rfl (.intern w.names text)
  | search _ _ _ ih | declare _ _ _ _ _ _ _ ih =>
      rw [Event.script_append_of_productions_eq_nil _ rfl]
      exact ih

theorem grammatical (h : Session events w p) {n : Node} (hn : w.Holds n) : n.Grammatical := by
  have pieces : ∀ n, .node n ∈ w.pieces → n.Grammatical := by
    clear hn
    induction h with
    | start names => nofun
    | build _ run ih =>
        exact (grammatical_invariant.law.shelve (fun _ _ _ _ _ _ _ => trivial) ih).of_ok run
    | intern _ _ ih | search _ _ _ ih | declare _ _ _ _ _ _ _ ih => exact ih
  obtain ⟨value, hv, hn⟩ := hn
  exact (pieces value hv).within hn

/-- Calls leave the workshop as it is. -/
theorem filter_calls (h : Session events w p) :
    Session (events.filter (!·.isCall)) w ⟨#[], 0⟩ := by
  induction h with
  | start names => exact .start names
  | build _ run ih =>
      rw [List.filter_append]
      exact ih.build run
  | intern _ text ih =>
      rw [List.filter_append]
      exact ih.intern text
  | search _ _ _ ih | declare _ _ _ _ _ _ _ ih =>
      rw [List.filter_append]
      simpa [Event.isCall] using ih

/-- What the events have made is still what they make after one more. -/
theorem makes_append {parts : List (List LocalSymbol)} {names names' : Names} {e : Event}
    {xs : List LocalSymbol}
    (h : List.Forall₂ (Event.Makes (Event.script events) names) events parts)
    (hn : names.Grows names') (he : e.Makes (Event.script (events ++ [e])) names' xs) :
    List.Forall₂ (Event.Makes (Event.script (events ++ [e])) names') (events ++ [e])
      (parts ++ [xs]) := by
  refine List.rel_append (h.imp fun _ _ hm => ?_) (.cons he .nil)
  rw [Event.script_append]
  exact hm.mono _ hn

/-- One event after the other makes its symbols, and the next numbers are theirs. -/
theorem exists_parts (h : Session events w p) : p.Gapless ∧ ∃ parts,
    List.Forall₂ (Event.Makes (Event.script events) w.names) events parts ∧
      p.found.toList = parts.flatten := by
  induction h with
  | start names => exact ⟨rfl, [], .nil, rfl⟩
  | @build events w w' p form hprev run ih =>
      obtain ⟨hp, parts, hparts, hfound⟩ := ih
      have hn : w.names.Grows w'.names :=
        ((grows_invariant w.names).law.shelve (fun _ _ _ _ _ _ _ => trivial) (.refl _)).of_ok run
      exact ⟨hp, parts ++ [[]], makes_append hparts hn rfl, by simpa using hfound⟩
  | @intern events w p hprev text ih =>
      obtain ⟨hp, parts, hparts, hfound⟩ := ih
      exact ⟨hp, parts ++ [[]], makes_append hparts (.intern w.names text) rfl,
        by simpa using hfound⟩
  | @search events w p q tree scope enclosing entry r hprev held run ih =>
      obtain ⟨hp, parts, hparts, hfound⟩ := ih
      -- What a search finds was faithful when it was made, and a search writes nothing.
      obtain ⟨xs, r', hadds, hxs⟩ := Search.addsOnly_enter_faithful hprev.scripted
        (fun _ => hprev.grammatical) tree scope enclosing held
      obtain ⟨-, rfl⟩ := Progress.ending_inj ((hadds p).symm.trans run)
      refine ⟨hp.adding xs, parts ++ [number p.state xs],
        makes_append hparts (.refl _) fun x hx => ?_, ?_⟩
      · obtain ⟨y, hy, id, rfl⟩ := LocalSymbol.exists_of_mem_number hx
        obtain ⟨start, hstart, hfound⟩ := hxs y hy
        rw [Event.script_append_of_productions_eq_nil events rfl]
        exact ⟨start, hstart, hfound.withId id⟩
      · simp [Progress.adding, hfound]
  | @declare events w p q scope type declarator i hprev hty hkt hd hkd hi run ih =>
      obtain ⟨hp, parts, hparts, hfound⟩ := ih
      -- A declarator makes one symbol by itself, without a search.
      let x : LocalSymbol := (LocalSymbol.regular w.names scope type i 0).1
      have hadds := Search.adds_regular w.names scope type i p
      have hrun : (p.adding [x]).ending (.ok ()) = q.ending (.ok ()) := hadds.symm.trans run
      obtain ⟨-, rfl⟩ := Progress.ending_inj hrun
      have declares : declarator.Declares i x :=
        ⟨Node.mem_leaves_of_identifier? hi, by rw [hkd]; rfl, rfl, rfl⟩
      have hx : x.Faithful (Event.script events) w.names scope none (some type) declarator := by
        refine LocalSymbol.faithful_of_declares hprev.scripted hd ?_ ⟨i, declares⟩ rfl rfl
          (LocalSymbol.placed_regular _ _ _ _ _ _)
        rintro _ ⟨⟩
        exact hty
      refine ⟨hp.adding [x], parts ++ [[x.withId p.state]],
        makes_append hparts (.refl _) ⟨_, rfl, ?_⟩, by simp [Progress.adding, hfound, number, x]⟩
      rw [Event.script_append_of_productions_eq_nil events rfl]
      exact hx.withId p.state

/-- **Symbols are faithful and gap-free.**  After every event of a session, failing searches
included, the symbols are numbered in the order in which they stand and the factory has counted
them.  They are made event by event, and each of them still tells of the variable that it was made
for: its name resolves to the text that was written at its range, whatever has been interned since.
The workshop, with its table of names, is what it would be without the searches and declarations. -/
theorem symbols_faithful (h : Session events w p) :
    p.state = p.found.size ∧ (∀ (k : Nat) (x : LocalSymbol), p.found[k]? = some x → x.id = k) ∧
    (∃ parts, List.Forall₂ (Event.Makes (Event.script events) w.names) events parts ∧
      p.found.toList = parts.flatten) ∧
    Session (events.filter (!·.isCall)) w ⟨#[], 0⟩ :=
  ⟨h.exists_parts.1.state_eq, fun _ _ hx => h.exists_parts.1.id_eq hx, h.exists_parts.2,
    h.filter_calls⟩

/-! ### The pieces `var v`, `this(out var y)`, `this is int x` and `this is var u` -/

section

variable (a v b y x u : Name)

/-- The type `var` of the declaration statement. -/
def sampleVarType : Node :=
  .mk ⟨⟨.identifierName, 1, ⟨0, 3⟩⟩, [.identifier ⟨0, ⟨0, 3⟩, a⟩], 0⟩ []

def sampleVarDeclarator : Node :=
  .mk ⟨⟨.variableDeclarator, 3, ⟨4, 5⟩⟩, [.identifier ⟨2, ⟨4, 5⟩, v⟩], 0⟩ []

def sampleVarStatement : Node :=
  .mk ⟨⟨.localDeclarationStatement, 5, ⟨0, 5⟩⟩, [], 0⟩
    [.mk ⟨⟨.variableDeclaration, 4, ⟨0, 5⟩⟩, [], 0⟩ [sampleVarType a, sampleVarDeclarator v]]

/-- The type `var` in the argument. -/
def sampleVarOutType : Node :=
  .mk ⟨⟨.identifierName, 9, ⟨11, 14⟩⟩, [.identifier ⟨8, ⟨11, 14⟩, b⟩], 0⟩ []

def sampleVarOut : Node :=
  .mk ⟨⟨.declarationExpression, 11, ⟨11, 16⟩⟩, [.identifier ⟨10, ⟨15, 16⟩, y⟩], 0⟩
    [sampleVarOutType b]

def sampleVarOutArgument : Node :=
  .mk ⟨⟨.argument, 13, ⟨11, 20⟩⟩, [.token ⟨.outKeyword, 12, ⟨17, 20⟩⟩], 0⟩ [sampleVarOut b y]

def sampleVarOutList : Node :=
  .mk ⟨⟨.argumentList, 14, ⟨11, 20⟩⟩, [], 0⟩ [sampleVarOutArgument b y]

def sampleVarOutCall : Node :=
  .mk ⟨⟨.invocationExpression, 15, ⟨6, 20⟩⟩, [], 0⟩
    [.mk ⟨⟨.thisExpression, 7, ⟨6, 10⟩⟩, [], 0⟩ [], sampleVarOutList b y]

def sampleIntTestType : Node :=
  .mk ⟨⟨.predefinedType, 19, ⟨26, 29⟩⟩, [.token ⟨.intKeyword, 18, ⟨26, 29⟩⟩], 0⟩ []

def sampleIntTest : Node :=
  .mk ⟨⟨.isPatternExpression, 22, ⟨21, 31⟩⟩, [], 0⟩
    [.mk ⟨⟨.thisExpression, 17, ⟨21, 25⟩⟩, [], 0⟩ [],
      .mk ⟨⟨.declarationPattern, 21, ⟨26, 31⟩⟩, [.identifier ⟨20, ⟨30, 31⟩, x⟩], 0⟩
        [sampleIntTestType]]

def sampleUntypedTest : Node :=
  .mk ⟨⟨.isPatternExpression, 27, ⟨32, 38⟩⟩, [], 0⟩
    [.mk ⟨⟨.thisExpression, 24, ⟨32, 36⟩⟩, [], 0⟩ [],
      .mk ⟨⟨.varPattern, 26, ⟨37, 38⟩⟩, [.identifier ⟨25, ⟨37, 38⟩, u⟩], 0⟩ []]

end

def sampleVarForm : Form := .localDeclaration (.name "var") [.make (.declarator "v") [[]]]

def sampleVarOutForm : Form :=
  .invocation (.make .thisExpression []) [.outDeclaration (.name "var") "y"]

def sampleIntTestForm : Form :=
  sampleTest (.make .declarationPattern [[.predefinedType .intKeyword], [.designation "x"]])

def sampleUntypedTestForm : Form := sampleTest (sampleVar "u")

section

variable (names : Names) (p q r : Option Piece)

theorem run_shelve_sampleVarForm :
    let a := names.intern "var"
    let v := a.2.intern "v"
    (Workshop.shelve [sampleVarForm]).run { names } =
      .ok ((), ⟨6, 6, v.2, #[some (.node (sampleVarStatement a.1 v.1))]⟩) := by
  intro a v
  conv => lhs; cbv
  rfl

theorem run_shelve_sampleVarOutForm :
    let b := names.intern "var"
    let y := b.2.intern "y"
    (Workshop.shelve [sampleVarOutForm]).run ⟨6, 6, names, #[p]⟩ =
      .ok ((), ⟨16, 21, y.2, #[p, some (.node (sampleVarOutCall b.1 y.1))]⟩) := by
  intro b y
  conv => lhs; cbv
  rfl

theorem run_shelve_sampleIntTestForm :
    let x := names.intern "x"
    (Workshop.shelve [sampleIntTestForm]).run ⟨16, 21, names, #[p, q]⟩ =
      .ok ((), ⟨23, 32, x.2, #[p, q, some (.node (sampleIntTest x.1))]⟩) := by
  intro x
  conv => lhs; cbv
  rfl

theorem run_shelve_sampleUntypedTestForm :
    let u := names.intern "u"
    (Workshop.shelve [sampleUntypedTestForm]).run ⟨23, 32, names, #[p, q, r]⟩ =
      .ok ((), ⟨28, 39, u.2, #[p, q, r, some (.node (sampleUntypedTest u.1))]⟩) := by
  intro u
  conv => lhs; cbv
  rfl

end

/-- The variable of the declaration statement, before it has its number. -/
def sampleDeclaredVariable (v : Name) : LocalSymbol where
  id := 0
  name := v
  kind := .regularVariable
  scope := 1
  enclosing := none
  type := some 1
  implicit := true
  range := ⟨4, 5⟩
  declaringCall := none

/-- The variable in the argument. -/
def sampleOutVariable (y : Name) : LocalSymbol where
  id := 0
  name := y
  kind := .outVariable
  scope := 1
  enclosing := some 0
  type := some 9
  implicit := true
  range := ⟨15, 16⟩
  declaringCall := some 15

/-- The variable of the pattern with a type. -/
def sampleTypedVariable (x : Name) : LocalSymbol where
  id := 0
  name := x
  kind := .patternVariable
  scope := 1
  enclosing := none
  type := some 19
  implicit := false
  range := ⟨30, 31⟩
  declaringCall := none

/-- The variable of the pattern without one. -/
def sampleUntypedVariable (u : Name) : LocalSymbol where
  id := 0
  name := u
  kind := .patternVariable
  scope := 1
  enclosing := none
  type := none
  implicit := true
  range := ⟨37, 38⟩
  declaringCall := none

section

variable (s : Search.Locals) (b y x u : Name)

/-- The list has one site. -/
theorem visit_sampleVarOutList : s.visit (sampleVarOutList b y) = s.report (sampleVarOut b y) := by
  simp [Search.visit_eq, Search.visitAll_cons, Search.visitAll_nil, sampleVarOutList,
    sampleVarOutArgument, sampleVarOut, sampleVarOutType, Node.searched, Node.kind, Node.label,
    Node.children, Search.report, Node.site?, Node.leaves, Node.type?, Leaf.identifier?]

/-- So has the call. -/
theorem visit_sampleVarOutCall : s.visit (sampleVarOutCall b y) = s.report (sampleVarOut b y) := by
  rw [← visit_sampleVarOutList, Search.visit_eq]
  simp [Search.visitAll_cons, Search.visitAll_nil, Search.visit_eq _ (.mk _ []), sampleVarOutCall,
    Node.searched, Node.kind, Node.label, Node.children, Search.report, Node.site?, Node.leaves]

theorem request_sampleVarOut : s.request (sampleVarOut b y) =
    (s.tree.declaringCall (sampleVarOut b y)).map fun call =>
      some (.out s.scope s.enclosing (sampleVarOutType b) ⟨10, ⟨15, 16⟩, y⟩ call) :=
  rfl

theorem visitAll_sampleTests : s.visitAll [sampleIntTest x, sampleUntypedTest u] = (do
    Search.append (s.factory.patternVariable s.scope (some sampleIntTestType)
      ⟨20, ⟨30, 31⟩, x⟩ ⟨26, 31⟩)
    Search.append (s.factory.patternVariable s.scope none ⟨25, ⟨37, 38⟩, u⟩ ⟨37, 38⟩)) := by
  simp [Search.visit_eq, Search.visitAll_cons, Search.visitAll_nil, sampleIntTest,
    sampleIntTestType, sampleUntypedTest, Node.searched, Node.kind, Node.label, Node.children,
    Search.report, Node.site?, Node.leaves, Node.type?, Leaf.identifier?]
  rfl

end

section

variable {tree : Tree} {names : Names} {a b y : Name}

/-- The declaration makes its variable, whose type is `var` by its text. -/
theorem adds_sampleVarDeclarator (ha : names.text? a = some "var") (v : Name) :
    Run.Adds (Search.append (LocalSymbol.regular names 1 (sampleVarType a) ⟨2, ⟨4, 5⟩, v⟩))
      [sampleDeclaredVariable v] (.ok ()) := by
  have hvar : LocalSymbol.isVar names (sampleVarType a) = true :=
    LocalSymbol.isVar_iff.mpr ⟨rfl, congrArg some ha⟩
  have hadds := Search.adds_regular names 1 (sampleVarType a) ⟨2, ⟨4, 5⟩, v⟩
  rw [LocalSymbol.regular, hvar] at hadds
  exact hadds

/-- So does the search of the call. -/
theorem adds_sampleVarOutCall (hb : names.text? b = some "var")
    (hcall : tree.declaringCall (sampleVarOut b y) = .ok (sampleVarOutCall b y)) :
    Run.Adds (Search.visit ⟨tree, LocalSymbol.factory names, 1, some 0⟩ (sampleVarOutCall b y))
      [sampleOutVariable y] (.ok ()) := by
  have hvar : LocalSymbol.isVar names (sampleVarOutType b) = true :=
    LocalSymbol.isVar_iff.mpr ⟨rfl, congrArg some hb⟩
  have hreport := Search.adds_report (s := ⟨tree, LocalSymbol.factory names, 1, some 0⟩) rfl
    (sampleVarOut b y)
  rw [request_sampleVarOut, hcall] at hreport
  rw [visit_sampleVarOutCall]
  have hsymbol : (Call.out 1 (some 0) (sampleVarOutType b) ⟨10, ⟨15, 16⟩, y⟩
      (sampleVarOutCall b y)).symbol names = sampleOutVariable y := by
    simp only [Call.symbol, Call.replay, LocalSymbol.factory, hvar]
    rfl
  rw [← hsymbol]
  exact hreport

/-- The search of the list by itself fails when the tree knows no call above it. -/
theorem adds_sampleVarOutList (names : Names) {e : ContextError}
    (herror : tree.declaringCall (sampleVarOut b y) = .error e) :
    Run.Adds (Search.visit ⟨tree, LocalSymbol.factory names, 1, some 0⟩ (sampleVarOutList b y))
      [] (.error e) := by
  have hreport := Search.adds_report (s := ⟨tree, LocalSymbol.factory names, 1, some 0⟩) rfl
    (sampleVarOut b y)
  rw [request_sampleVarOut, herror] at hreport
  rw [visit_sampleVarOutList]
  exact hreport

theorem adds_sampleTests (tree : Tree) (names : Names) (x u : Name) :
    Run.Adds (Search.enter ⟨tree, LocalSymbol.factory names, 1, some 0⟩
      (.list [sampleIntTest x, sampleUntypedTest u]))
      [sampleTypedVariable x, sampleUntypedVariable u] (.ok ()) := by
  rw [Search.enter, Search.findInList, visitAll_sampleTests]
  exact (Run.adds_append (x := sampleTypedVariable x) fun _ => rfl).bind
    (Run.adds_append (x := sampleUntypedVariable u) fun _ => rfl)

end

/-- A session with a declared variable, a variable in an argument and two in patterns, one of them
with a type.  In between, a search of the argument list by itself fails and adds nothing, and a text
is interned. -/
theorem symbols_faithful_sampleSession : ∃ (a v b y x u : Name) (w : Workshop),
    let call := sampleVarOutCall b y
    let list := sampleVarOutList b y
    let test := sampleIntTest x
    let events : List Event := [.build sampleVarForm,
      .declare 1 (sampleVarType a) (sampleVarDeclarator v), .build sampleVarOutForm,
      .search (.ofRoot call) 1 (some 0) (.node (some call)),
      .search (.ofRoot list) 1 (some 0) (.node (some list)), .intern "z",
      .build sampleIntTestForm, .build sampleUntypedTestForm,
      .search (.ofRoot test) 1 (some 0) (.list [test, sampleUntypedTest u])]
    let p : Progress SymbolId LocalSymbol := ⟨(number 0 [sampleDeclaredVariable v,
      sampleOutVariable y, sampleTypedVariable x, sampleUntypedVariable u]).toArray, 4⟩
    Session events w p ∧
    p.state = p.found.size ∧ (∀ (k : Nat) (x : LocalSymbol), p.found[k]? = some x → x.id = k) ∧
    (∃ parts, List.Forall₂ (Event.Makes (Event.script events) w.names) events parts ∧
      p.found.toList = parts.flatten) ∧
    Session (events.filter (!·.isCall)) w ⟨#[], 0⟩ := by
  let a := Names.empty.intern "var"
  let v := a.2.intern "v"
  let b := v.2.intern "var"
  let y := b.2.intern "y"
  let z := y.2.intern "z"
  let x := z.2.intern "x"
  let u := x.2.intern "u"
  let statement := sampleVarStatement a.1 v.1
  let call := sampleVarOutCall b.1 y.1
  let list := sampleVarOutList b.1 y.1
  let test := sampleIntTest x.1
  let untyped := sampleUntypedTest u.1
  let w₁ : Workshop := ⟨6, 6, v.2, #[some (.node statement)]⟩
  let w₂ : Workshop := ⟨16, 21, y.2, #[some (.node statement), some (.node call)]⟩
  let w₃ : Workshop :=
    ⟨23, 32, x.2, #[some (.node statement), some (.node call), some (.node test)]⟩
  let w₄ : Workshop := ⟨28, 39, u.2,
    #[some (.node statement), some (.node call), some (.node test), some (.node untyped)]⟩
  have first : (Workshop.shelve [sampleVarForm]).run {} = .ok ((), w₁) :=
    run_shelve_sampleVarForm .empty
  have second : (Workshop.shelve [sampleVarOutForm]).run w₁ = .ok ((), w₂) :=
    run_shelve_sampleVarOutForm v.2 _
  have third : (Workshop.shelve [sampleIntTestForm]).run { w₂ with names := z.2 } = .ok ((), w₃) :=
    run_shelve_sampleIntTestForm z.2 _ _
  have fourth : (Workshop.shelve [sampleUntypedTestForm]).run w₃ = .ok ((), w₄) :=
    run_shelve_sampleUntypedTestForm x.2 _ _ _
  have built : Workshop.ofForms [sampleVarForm, sampleVarOutForm] = .ok w₂ := by
    have both : (Workshop.shelve [sampleVarForm, sampleVarOutForm]).run {} = .ok ((), w₂) :=
      (Workshop.run_shelve_append [_] first).trans second
    rw [Workshop.ofForms, both]
    rfl
  have heldStatement : w₁.Holds statement := ⟨_, List.mem_singleton_self _, .refl _⟩
  have hold : w₂.Holds call := ⟨_, List.mem_cons_of_mem _ (List.mem_singleton_self _), .refl _⟩
  have holdList : w₂.Holds list := hold.within ⟨[1], rfl⟩
  have heldCall : ∀ n ∈ Entry.starts (.node (some call)), w₂.Holds n := by
    simpa [Entry.starts] using hold
  have heldList : ∀ n ∈ Entry.starts (.node (some list)), w₂.Holds n := by
    simpa [Entry.starts] using holdList
  have heldTests : ∀ n ∈ Entry.starts (.list [test, untyped]), w₄.Holds n := by
    intro n hn
    exact ⟨n, List.mem_cons_of_mem _ (List.mem_cons_of_mem _ (List.mem_map_of_mem hn)), .refl n⟩
  have hcall : (Tree.ofRoot call).declaringCall (sampleVarOut b.1 y.1) = .ok call := by
    rw [Tree.declaringCall_eq_ok_iff_climbs built hold (holdList.within ⟨[0, 0], rfl⟩),
      Tree.climbs_callShape_iff built hold]
    exact ⟨.refl _, rfl, list, by simp [call, sampleVarOutCall, list, Node.children], rfl,
      sampleVarOutArgument b.1 y.1, List.mem_singleton_self _, rfl, rfl⟩
  have herror : (Tree.ofRoot list).declaringCall (sampleVarOut b.1 y.1) = .error ⟨none, 11⟩ := by
    rw [Tree.declaringCall_eq_error_iff built holdList (holdList.within ⟨[0, 0], rfl⟩)]
    have breaks : list.Breaks Node.callShape (sampleVarOut b.1 y.1) none :=
      .above ⟨⟨[0], rfl⟩, List.mem_singleton_self _⟩ rfl
        (.above ⟨.refl _, List.mem_singleton_self _⟩ rfl
          (.ends fun p h => Node.not_parentIn_self _ p h))
    exact ⟨breaks, rfl⟩
  -- The two uses of `var` keep their text, whatever is interned after them.
  have ha : v.2.text? a.1 = some "var" := Names.text?_intern_of_text? (Names.text?_intern _ _) _
  have hb : y.2.text? b.1 = some "var" := Names.text?_intern_of_text? (Names.text?_intern _ _) _
  have hvar := adds_sampleVarDeclarator ha v.1
  have hout := adds_sampleVarOutCall hb hcall
  have hlist := adds_sampleVarOutList y.2 herror
  have htests := adds_sampleTests (.ofRoot test) w₄.names x.1 u.1
  have declared := ((start .empty).build first).declare (heldStatement.within ⟨[0, 0], rfl⟩) rfl
    (heldStatement.within ⟨[0, 1], rfl⟩) rfl rfl (hvar ⟨#[], 0⟩)
  have found := (declared.build second).search heldCall (hout _)
  have failed := found.search heldList (hlist _)
  have tested := ((failed.intern "z").build third).build fourth
  have session := tested.search heldTests (htests _)
  exact ⟨a.1, v.1, b.1, y.1, x.1, u.1, w₄, session, session.symbols_faithful⟩

end Session

end InlineLocals
