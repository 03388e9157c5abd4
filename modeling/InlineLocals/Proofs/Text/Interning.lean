import InlineLocals.Text.NamePool
import Mathlib.Data.List.Basic
import Mathlib.Data.List.Induction
import Mathlib.Data.List.Nodup
import Mathlib.Data.List.Perm.Subperm

/-!
# Text — Interning

What tables of names hold after any history.  A table lists each text that was interned in it once,
in the order in which they first came (`Names.Lists`), so the number of a name is the place of its
text in that order, and it never changes (`Names.Grows`).

A pool is asked by requests (`NamePool.serve?`).  `Account` tells a history of requests without
tables of texts: the handles fall into lines, each of which begins with a handle to a new table and
goes on with copies, and it says what was interned through the handles of each line.  One request
keeps account and pool in agreement (`Account.Mirrors.serve?`), hence a whole history does
(`Account.mirrors`), and `NamePool.Faithful` says what this means for all that can be asked.
-/

namespace InlineLocals

/-! ### Texts in the order in which they first come -/

/-- A text that comes again changes nothing, and one that comes for the first time comes last. -/
theorem eraseDups_concat (texts : List String) (text : String) :
    (texts ++ [text]).eraseDups =
      if text ∈ texts then texts.eraseDups else texts.eraseDups ++ [text] := by
  rw [List.eraseDups_append]
  split
  · next h => simp [List.removeAll, h]
  · next h => simp [List.removeAll, h, List.eraseDups_cons]

/-- Before a text stand those that came before it first did. -/
theorem idxOf_eraseDups {texts : List String} {text : String} (h : text ∈ texts) :
    texts.eraseDups.idxOf text = (texts.takeWhile (· != text)).eraseDups.length := by
  obtain ⟨before, after, rfl, hb⟩ := List.eq_append_cons_of_mem h
  have hwhile : (before ++ text :: after).takeWhile (· != text) = before := by
    rw [List.takeWhile_append_of_pos]
    · simp
    · intro other ho
      exact bne_iff_ne.mpr fun e => hb (e ▸ ho)
  rw [hwhile, List.eraseDups_append, List.idxOf_append_of_notMem (by simpa using hb)]
  simp [List.removeAll, hb, List.eraseDups_cons]

namespace Names

/-- The table holds the texts of the list, each once, in the order in which they first come. -/
def Lists (names : Names) (texts : List String) : Prop := names.texts.toList = texts.eraseDups

theorem lists_empty : empty.Lists [] := rfl

theorem find?_eq_none_iff {names : Names} {text : String} :
    names.find? text = none ↔ text ∉ names.texts.toList := by
  rw [Option.eq_none_iff_forall_ne_some, List.mem_iff_getElem?, not_exists]
  constructor
  · exact fun h i hi => h ⟨i⟩ (find?_eq_some_iff.mpr (by rwa [text?, ← Array.getElem?_toList]))
  · intro h name hname
    refine h name.number ?_
    rw [Array.getElem?_toList]
    exact find?_eq_some_iff.mp hname

/-- No text has two numbers. -/
theorem nodup_texts (names : Names) : names.texts.toList.Nodup := by
  rw [List.nodup_iff_getElem?_ne_getElem?]
  intro i j hij hj e
  obtain ⟨text, ht⟩ : ∃ text, names.texts[j]? = some text := ⟨_, Array.getElem?_eq_getElem hj⟩
  rw [Array.getElem?_toList, Array.getElem?_toList, ht] at e
  have hi : names.find? text = some ⟨i⟩ := find?_eq_some_iff.mpr e
  have hj : names.find? text = some ⟨j⟩ := find?_eq_some_iff.mpr ht
  rw [hi] at hj
  cases hj
  exact Nat.lt_irrefl _ hij

/-- A text that is interned comes after those there are, unless it is one of them. -/
theorem texts_intern (names : Names) (text : String) :
    (names.intern text).2.texts.toList =
      if text ∈ names.texts.toList then names.texts.toList
      else names.texts.toList ++ [text] := by
  cases h : names.find? text with
  | none =>
      rw [if_neg (find?_eq_none_iff.mp h), (texts_intern_of_find?_eq_none h).2]
      exact Array.toList_push
  | some name =>
      have hmem : text ∈ names.texts.toList := by
        by_contra hn
        rw [find?_eq_none_iff.mpr hn] at h
        cases h
      rw [intern_of_find? h, if_pos hmem]

/-- The number of a name is the place of its text. -/
theorem number_eq_idxOf {names : Names} {name : Name} {text : String}
    (h : names.text? name = some text) : name.number = names.texts.toList.idxOf text := by
  obtain ⟨hlt, rfl⟩ := Array.getElem?_eq_some_iff.mp h
  exact (names.nodup_texts.idxOf_getElem name.number (by simpa using hlt)).symm

namespace Lists

variable {names : Names} {texts : List String}

theorem mem_iff (h : names.Lists texts) {text : String} :
    text ∈ names.texts.toList ↔ text ∈ texts := by
  rw [h, List.mem_eraseDups]

theorem size_eq (h : names.Lists texts) : names.size = texts.eraseDups.length := by
  rw [← h, Array.length_toList, size]

/-- A table holds no more texts than were interned. -/
theorem size_le (h : names.Lists texts) : names.size ≤ texts.length := by
  have hsub : names.texts.toList.Subperm texts :=
    names.nodup_texts.subperm fun _ ht => h.mem_iff.mp ht
  simpa [size] using hsub.length_le

theorem intern (h : names.Lists texts) (text : String) :
    (names.intern text).2.Lists (texts ++ [text]) := by
  rw [Lists, texts_intern, eraseDups_concat]
  simp only [h.mem_iff]
  rw [h]

/-- The number of a text is the number of those that came before it first did. -/
theorem number_intern (h : names.Lists texts) (text : String) :
    (names.intern text).1.number = (texts.takeWhile (· != text)).eraseDups.length := by
  have hplace := number_eq_idxOf (names.text?_intern text)
  rw [h.intern text, idxOf_eraseDups (List.mem_append_right _ List.mem_cons_self)] at hplace
  rw [hplace, List.takeWhile_append]
  split
  · next hall =>
    rw [(List.takeWhile_sublist _).eq_of_length hall]
    simp
  · rfl

end Lists

/-- Every name of the first table has the same text in the second. -/
def Grows (names names' : Names) : Prop :=
  ∀ name text, names.text? name = some text → names'.text? name = some text

namespace Grows

theorem refl (names : Names) : names.Grows names := fun _ _ h => h

theorem trans {names names' names'' : Names} (h : names.Grows names') (h' : names'.Grows names'') :
    names.Grows names'' :=
  fun name text ht => h' name text (h name text ht)

theorem intern (names : Names) (text : String) : names.Grows (names.intern text).2 :=
  fun _ _ h => text?_intern_of_text? h text

end Grows

end Names

/-! ### Asking a pool -/

namespace NamePool

/-- What can be asked of a pool, most of it through a handle. -/
inductive Request where
  /-- A handle to a new table. -/
  | create
  /-- One more handle to the same table. -/
  | share (handle : Nat)
  | intern (handle : Nat) (text : String)
  | find (handle : Nat) (text : String)
  | isNamed (handle : Nat) (name : Name) (text : String)
  /-- The text of a name. -/
  | resolve (handle : Nat) (name : Name)
  /-- How many texts the table holds. -/
  | size (handle : Nat)

inductive Reply where
  | handle (handle : Nat)
  | name (name : Name)
  | found (name? : Option Name)
  | verdict (holds : Bool)
  | text (text : String)
  | count (count : Nat)
deriving DecidableEq

/-- The request only asks for what is there. -/
def Request.IsQuestion : Request → Prop
  | create | share _ | intern _ _ => False
  | find _ _ | isNamed _ _ _ | resolve _ _ | size _ => True

/-- The reply to a request, and the pool after it.  There is none through a handle that was never
given out, and no text for a name that the table never gave out. -/
def serve? (pool : NamePool) : Request → Option (Reply × NamePool)
  | .create => some (.handle pool.create.1, pool.create.2)
  | .share handle => (pool.share? handle).map fun (copy, pool) => (.handle copy, pool)
  | .intern handle text => (pool.intern? handle text).map fun (name, pool) => (.name name, pool)
  | .find handle text => (pool.table? handle).map fun names => (.found (names.find? text), pool)
  | .isNamed handle name text =>
    (pool.table? handle).map fun names => (.verdict (names.isNamed name text), pool)
  | .resolve handle name =>
    (pool.table? handle).bind fun names => (names.text? name).map fun text => (.text text, pool)
  | .size handle => (pool.table? handle).map fun names => (.count names.size, pool)

/-- The reply alone. -/
def reply? (pool : NamePool) (request : Request) : Option Reply := (pool.serve? request).map (·.1)

/-- The pool after requests, one after the other, each of which has a reply. -/
def serveAll? (pool : NamePool) (history : List Request) : Option NamePool :=
  history.foldlM (fun pool request => (pool.serve? request).map (·.2)) pool

theorem serveAll?_concat (pool : NamePool) (history : List Request) (request : Request) :
    pool.serveAll? (history ++ [request]) =
      (pool.serveAll? history).bind fun pool => (pool.serve? request).map (·.2) := by
  simp [serveAll?, List.foldlM_append]

theorem table?_eq_some_iff {pool : NamePool} {handle : Nat} {names : Names} :
    pool.table? handle = some names ↔
      ∃ place, pool.handles[handle]? = some place ∧ pool.tables[place]? = some names :=
  Option.bind_eq_some_iff

theorem reply?_find (pool : NamePool) (handle : Nat) (text : String) :
    pool.reply? (.find handle text) =
      (pool.table? handle).map fun names => .found (names.find? text) :=
  Option.map_map _ _ _

theorem reply?_isNamed (pool : NamePool) (handle : Nat) (name : Name) (text : String) :
    pool.reply? (.isNamed handle name text) =
      (pool.table? handle).map fun names => .verdict (names.isNamed name text) :=
  Option.map_map _ _ _

theorem reply?_size (pool : NamePool) (handle : Nat) :
    pool.reply? (.size handle) = (pool.table? handle).map fun names => .count names.size :=
  Option.map_map _ _ _

theorem reply?_resolve (pool : NamePool) (handle : Nat) (name : Name) :
    pool.reply? (.resolve handle name) =
      (pool.table? handle).bind fun names => (names.text? name).map .text := by
  cases h : pool.table? handle with
  | none => simp [reply?, serve?, h]
  | some names => simp [reply?, serve?, h, Option.map_map, Function.comp_def]

/-- A name resolves to a text where the table of the handle says so. -/
theorem resolves_iff {pool : NamePool} {handle : Nat} {name : Name} {text : String} :
    pool.reply? (.resolve handle name) = some (.text text) ↔
      ∃ names, pool.table? handle = some names ∧ names.text? name = some text := by
  simp [reply?_resolve, Option.bind_eq_some_iff]

/-- A question changes nothing. -/
theorem eq_of_isQuestion {pool pool' : NamePool} {request : Request} {reply : Reply}
    (hq : request.IsQuestion) (hs : pool.serve? request = some (reply, pool')) : pool' = pool := by
  cases request with
  | create | share _ | intern _ _ => cases hq
  | find _ _ | isNamed _ _ _ | size _ =>
      obtain ⟨names, -, e⟩ := Option.map_eq_some_iff.mp hs
      cases e
      rfl
  | resolve _ _ =>
      obtain ⟨names, -, hs⟩ := Option.bind_eq_some_iff.mp hs
      obtain ⟨text, -, e⟩ := Option.map_eq_some_iff.mp hs
      cases e
      rfl

/-- After a request every handle leads to the table that it led to, and that has only grown. -/
theorem exists_grows {pool pool' : NamePool} {request : Request} {reply : Reply}
    (hs : pool.serve? request = some (reply, pool')) {handle : Nat} {names : Names}
    (ht : pool.table? handle = some names) :
    ∃ names', pool'.table? handle = some names' ∧ names.Grows names' := by
  obtain ⟨place, hplace, hn⟩ := table?_eq_some_iff.mp ht
  have hhandle := (Array.getElem?_eq_some_iff.mp hplace).1
  cases request with
  | create =>
      cases hs
      refine ⟨names, table?_eq_some_iff.mpr ⟨place, ?_, ?_⟩, .refl _⟩
      · exact Array.getElem?_push.trans ((if_neg (Nat.ne_of_lt hhandle)).trans hplace)
      · have hlt := (Array.getElem?_eq_some_iff.mp hn).1
        exact Array.getElem?_push.trans ((if_neg (Nat.ne_of_lt hlt)).trans hn)
  | share other =>
      obtain ⟨⟨copy, _⟩, hshare, e⟩ := Option.map_eq_some_iff.mp hs
      cases e
      obtain ⟨_, -, e⟩ := Option.bind_eq_some_iff.mp hshare
      cases e
      refine ⟨names, table?_eq_some_iff.mpr ⟨place, ?_, hn⟩, .refl _⟩
      exact Array.getElem?_push.trans ((if_neg (Nat.ne_of_lt hhandle)).trans hplace)
  | intern other text =>
      obtain ⟨⟨name, _⟩, hintern, e⟩ := Option.map_eq_some_iff.mp hs
      cases e
      obtain ⟨target, -, hintern⟩ := Option.bind_eq_some_iff.mp hintern
      obtain ⟨old, hold, e⟩ := Option.bind_eq_some_iff.mp hintern
      cases e
      -- The text goes to the table of the handle, or to another one.
      by_cases hp : target = place
      · subst hp
        rw [hold] at hn
        cases hn
        refine ⟨(names.intern text).2, table?_eq_some_iff.mpr ⟨target, hplace, ?_⟩, .intern _ _⟩
        exact Array.getElem?_setIfInBounds_self_of_lt (Array.getElem?_eq_some_iff.mp hold).1
      · refine ⟨names, table?_eq_some_iff.mpr ⟨place, hplace, ?_⟩, .refl _⟩
        exact (Array.getElem?_setIfInBounds_ne hp).trans hn
  | find _ _ | isNamed _ _ _ | resolve _ _ | size _ =>
      obtain rfl := eq_of_isQuestion (by exact trivial) hs
      exact ⟨names, ht, .refl _⟩

/-- What a name resolves to through a handle, it resolves to ever after. -/
theorem resolve_of_serveAll? {later : List Request} : ∀ {pool pool' : NamePool},
    pool.serveAll? later = some pool' → ∀ {handle : Nat} {name : Name} {text : String},
      pool.reply? (.resolve handle name) = some (.text text) →
        pool'.reply? (.resolve handle name) = some (.text text) := by
  induction later with
  | nil =>
      intro pool pool' h _ _ _ ht
      cases h
      exact ht
  | cons request later ih =>
      intro pool pool' h handle name text ht
      obtain ⟨between, hbetween, h⟩ := Option.bind_eq_some_iff.mp h
      obtain ⟨⟨reply, _⟩, hs, rfl⟩ := Option.map_eq_some_iff.mp hbetween
      obtain ⟨names, hn, ht⟩ := resolves_iff.mp ht
      obtain ⟨names', hn', hgrows⟩ := exists_grows hs hn
      exact ih h (resolves_iff.mpr ⟨names', hn', hgrows name text ht⟩)

end NamePool

open NamePool (Request Reply)

/-! ### An account of a history -/

/-- A history of requests, told without tables of texts. -/
structure Account where
  /-- How many new tables were asked for, and thereby how many lines of handles have begun. -/
  made : Nat
  /-- For each handle, the line that it is in: its own, or that of the handle it is a copy of. -/
  lines : List Nat
  /-- What was interned, and through a handle of which line. -/
  interned : List (Nat × String)

namespace Account

variable {a : Account} {pool pool' : NamePool}

/-- The account of one more request. -/
def after (a : Account) : Request → Account
  | .create => { a with made := a.made + 1, lines := a.lines ++ [a.made] }
  | .share handle => { a with lines := a.lines ++ a.lines[handle]?.toList }
  | .intern handle text =>
    { a with interned := a.interned ++ (a.lines[handle]?.map (·, text)).toList }
  | .find _ _ | .isNamed _ _ _ | .resolve _ _ | .size _ => a

/-- The account of a history, which begins with one handle. -/
def of (history : List Request) : Account := history.foldl after ⟨1, [0], []⟩

theorem of_concat (history : List Request) (request : Request) :
    of (history ++ [request]) = (of history).after request := by
  simp [of]

/-- What was interned through the handles of a line, with repetitions. -/
def texts (a : Account) (line : Nat) : List String :=
  a.interned.filterMap fun entry => if entry.1 = line then some entry.2 else none

/-- The request goes through a handle that was given out, if it needs one, and a name that is to be
resolved is one of its line. -/
def Admits (a : Account) : Request → Prop
  | .create => True
  | .share handle | .intern handle _ | .find handle _ | .isNamed handle _ _ | .size handle =>
    handle < a.lines.length
  | .resolve handle name =>
    ∃ line, a.lines[handle]? = some line ∧ name.number < (a.texts line).eraseDups.length

/-- The handles of the pool lead where the account says, and its tables list what was interned. -/
structure Mirrors (a : Account) (pool : NamePool) : Prop where
  handles : pool.handles.toList = a.lines
  tables : pool.tables.size = a.made
  line_lt : ∀ line ∈ a.lines, line < a.made
  interned_lt : ∀ entry ∈ a.interned, entry.1 < a.made
  lists : ∀ (line : Nat) (names : Names), pool.tables[line]? = some names →
    names.Lists (a.texts line)

namespace Mirrors

theorem handle_eq (h : a.Mirrors pool) (handle : Nat) :
    pool.handles[handle]? = a.lines[handle]? := by
  rw [← h.handles, Array.getElem?_toList]

/-- A handle of the account leads to a table with the texts of its line. -/
theorem exists_table (h : a.Mirrors pool) {handle line : Nat}
    (hl : a.lines[handle]? = some line) :
    ∃ names, pool.tables[line]? = some names ∧ pool.table? handle = some names ∧
      names.Lists (a.texts line) := by
  have hlt : line < pool.tables.size := h.tables ▸ h.line_lt line (List.mem_of_getElem? hl)
  refine ⟨pool.tables[line], Array.getElem?_eq_getElem hlt, ?_,
    h.lists _ _ (Array.getElem?_eq_getElem hlt)⟩
  rw [NamePool.table?, h.handle_eq, hl]
  exact Array.getElem?_eq_getElem hlt

/-- Interning changes the one table, for all handles that lead to it. -/
theorem exists_intern (h : a.Mirrors pool) {handle line : Nat}
    (hl : a.lines[handle]? = some line) (text : String) :
    ∃ names, pool.table? handle = some names ∧ names.Lists (a.texts line) ∧
      pool.tables[line]? = some names ∧
      pool.intern? handle text = some ((names.intern text).1,
        { pool with tables := pool.tables.setIfInBounds line (names.intern text).2 }) := by
  obtain ⟨names, hn, ht, hlists⟩ := h.exists_table hl
  refine ⟨names, ht, hlists, hn, ?_⟩
  rw [NamePool.intern?, h.handle_eq, hl]
  simp [hn]

end Mirrors

/-- No text was interned in a line that has not begun. -/
theorem Mirrors.texts_made (h : a.Mirrors pool) : a.texts a.made = [] := by
  rw [texts, List.filterMap_eq_nil_iff]
  intro entry hentry
  exact if_neg (Nat.ne_of_lt (h.interned_lt entry hentry))

theorem texts_intern (a : Account) {handle line : Nat} (hl : a.lines[handle]? = some line)
    (text : String) (other : Nat) : (a.after (.intern handle text)).texts other =
      if line = other then a.texts other ++ [text] else a.texts other := by
  simp only [texts, after, hl, Option.map_some, Option.toList_some, List.filterMap_append]
  split
  · next h => simp [h]
  · next h => simp [h]

/-- A new table has no texts, and a new handle leads to it. -/
theorem Mirrors.create (h : a.Mirrors pool) : (a.after .create).Mirrors pool.create.2 where
  handles := by simp [NamePool.create, after, h.handles, h.tables]
  tables := by simp [NamePool.create, after, h.tables]
  line_lt := by
    refine List.forall_mem_append.mpr ⟨fun line hl => Nat.lt_succ_of_lt (h.line_lt line hl), ?_⟩
    exact List.forall_mem_singleton.mpr (Nat.lt_succ_self _)
  interned_lt entry he := Nat.lt_succ_of_lt (h.interned_lt entry he)
  lists line names hn := by
    change (pool.tables.push .empty)[line]? = some names at hn
    rw [Array.getElem?_push] at hn
    split at hn
    · next hline =>
      cases hn
      rw [hline, h.tables]
      exact h.texts_made ▸ Names.lists_empty
    · exact h.lists line names hn

/-- A copy of a handle is in the line of that handle. -/
theorem Mirrors.share (h : a.Mirrors pool) {handle copy : Nat}
    (hs : pool.share? handle = some (copy, pool')) : (a.after (.share handle)).Mirrors pool' := by
  cases hl : a.lines[handle]? with
  | none => simp [NamePool.share?, h.handle_eq, hl] at hs
  | some line =>
      simp only [NamePool.share?, h.handle_eq, hl, Option.bind_eq_bind, Option.bind_some] at hs
      cases hs
      refine ⟨?_, h.tables, ?_, h.interned_lt, h.lists⟩
      · simp [after, hl, h.handles]
      · simp only [after, hl, Option.toList_some, List.forall_mem_append,
          List.forall_mem_singleton]
        exact ⟨h.line_lt, h.line_lt line (List.mem_of_getElem? hl)⟩

/-- The table of the line takes the text, and the other tables stay as they are. -/
theorem Mirrors.intern (h : a.Mirrors pool) {handle : Nat} {text : String} {name : Name}
    (hs : pool.intern? handle text = some (name, pool')) :
    (a.after (.intern handle text)).Mirrors pool' := by
  cases hl : a.lines[handle]? with
  | none => simp [NamePool.intern?, h.handle_eq, hl] at hs
  | some line =>
      obtain ⟨names, -, hlists, hn, hnew⟩ := h.exists_intern hl text
      rw [hnew] at hs
      cases hs
      refine ⟨h.handles, ?_, h.line_lt, ?_, fun other found hf => ?_⟩
      · simp [after, h.tables]
      · simp only [after, hl, Option.map_some, Option.toList_some, List.forall_mem_append,
          List.forall_mem_singleton]
        exact ⟨h.interned_lt, h.line_lt line (List.mem_of_getElem? hl)⟩
      · rw [a.texts_intern hl]
        -- One line has a new table, and the handles of the other lines still lead to theirs.
        rw [Array.getElem?_setIfInBounds] at hf
        split at hf
        · next hother =>
          subst hother
          split at hf
          · cases hf
            rw [if_pos rfl]
            exact hlists.intern text
          · cases hf
        · next hother =>
          rw [if_neg hother]
          exact h.lists other found hf

/-- **One request keeps pool and account in agreement.** -/
theorem Mirrors.serve? (h : a.Mirrors pool) {request : Request} {reply : Reply}
    (hs : pool.serve? request = some (reply, pool')) : (a.after request).Mirrors pool' := by
  cases request with
  | create =>
      cases hs
      exact h.create
  | share handle =>
      obtain ⟨_, hshare, e⟩ := Option.map_eq_some_iff.mp hs
      cases e
      exact h.share hshare
  | intern handle text =>
      obtain ⟨_, hintern, e⟩ := Option.map_eq_some_iff.mp hs
      cases e
      exact h.intern hintern
  | find _ _ | isNamed _ _ _ | resolve _ _ | size _ =>
      obtain rfl := NamePool.eq_of_isQuestion (by exact trivial) hs
      exact h

theorem mirrors_initial : (of []).Mirrors .initial where
  handles := rfl
  tables := rfl
  line_lt := by simp [of]
  interned_lt := nofun
  lists line names h := by
    obtain ⟨hlt, rfl⟩ := Array.getElem?_eq_some_iff.mp h
    obtain rfl : line = 0 := Nat.lt_one_iff.mp hlt
    exact Names.lists_empty

/-- **Account and pool agree after every history.** -/
theorem mirrors {history : List Request} : ∀ {pool : NamePool},
    NamePool.initial.serveAll? history = some pool → (of history).Mirrors pool := by
  induction history using List.reverseRecOn with
  | nil =>
      intro pool h
      cases h
      exact mirrors_initial
  | append_singleton history request ih =>
      intro pool h
      rw [NamePool.serveAll?_concat] at h
      obtain ⟨before, hbefore, h⟩ := Option.bind_eq_some_iff.mp h
      obtain ⟨⟨reply, _⟩, hs, rfl⟩ := Option.map_eq_some_iff.mp h
      rw [of_concat]
      exact (ih hbefore).serve? hs

end Account

/-! ### What the replies tell -/

/-- What a pool replies, its history being as the account tells. -/
structure NamePool.Faithful (pool : NamePool) (a : Account) : Prop where
  served (request : Request) : (pool.serve? request).isSome = true ↔ a.Admits request
  /-- Handles are numbered as they are given out. -/
  created : pool.reply? .create = some (.handle a.lines.length)
  copied (handle : Nat) : handle < a.lines.length →
    pool.reply? (.share handle) = some (.handle a.lines.length)
  /-- A table holds what was interned in its line, each text once and in the order of their first
  coming, and nothing that was interned elsewhere. -/
  seen (handle line : Nat) : a.lines[handle]? = some line →
    ∃ names, pool.table? handle = some names ∧ names.texts.toList = (a.texts line).eraseDups ∧
      names.texts.toList.Nodup
  /-- Two handles lead to one table exactly when one line joins them. -/
  shared (handle other : Nat) :
    pool.handles[handle]? = pool.handles[other]? ↔ a.lines[handle]? = a.lines[other]?
  /-- Interning replies with the number of texts that the table held when this one first came.  The
  table takes the text at its end, unless it holds it, and this is seen through all handles of the
  line, and through no other. -/
  interned (handle line : Nat) (text : String) : a.lines[handle]? = some line →
    ∃ names names' pool', pool.table? handle = some names ∧
      pool.serve? (.intern handle text) =
        some (.name ⟨((a.texts line).takeWhile (· != text)).eraseDups.length⟩, pool') ∧
      names'.texts.toList = (if text ∈ names.texts.toList then names.texts.toList
        else names.texts.toList ++ [text]) ∧
      ∀ other : Nat, pool'.table? other =
        if a.lines[other]? = some line then some names' else pool.table? other
  sized (handle line : Nat) : a.lines[handle]? = some line →
    pool.reply? (.size handle) = some (.count (a.texts line).eraseDups.length)
  inverse (handle : Nat) (text : String) (name : Name) :
    pool.reply? (.find handle text) = some (.found (some name)) ↔
      pool.reply? (.resolve handle name) = some (.text text)
  /-- Comparing names is comparing texts, be the other text interned or not. -/
  compared (handle : Nat) (name : Name) (known text : String) :
    pool.reply? (.resolve handle name) = some (.text known) →
      pool.reply? (.isNamed handle name text) = some (.verdict (known == text))
  questions (request : Request) (reply : Reply) (pool' : NamePool) : request.IsQuestion →
    pool.serve? request = some (reply, pool') → pool' = pool
  kept (later : List Request) (pool' : NamePool) : pool.serveAll? later = some pool' →
    ∀ (handle : Nat) (name : Name) (text : String),
      pool.reply? (.resolve handle name) = some (.text text) →
        pool'.reply? (.resolve handle name) = some (.text text)

namespace Account.Mirrors

variable {a : Account} {pool : NamePool}

/-- A handle that was never given out leads nowhere. -/
theorem table?_eq_none (h : a.Mirrors pool) {handle : Nat} (hl : a.lines[handle]? = none) :
    pool.table? handle = none := by
  rw [NamePool.table?, h.handle_eq, hl]
  rfl

theorem isSome_table? (h : a.Mirrors pool) (handle : Nat) :
    (pool.table? handle).isSome = true ↔ handle < a.lines.length := by
  cases hl : a.lines[handle]? with
  | none =>
      rw [h.table?_eq_none hl]
      exact iff_of_false nofun (Nat.not_lt.mpr (List.getElem?_eq_none_iff.mp hl))
  | some line =>
      obtain ⟨names, -, ht, -⟩ := h.exists_table hl
      rw [ht]
      exact iff_of_true rfl (List.getElem?_eq_some_iff.mp hl).1

theorem isSome_serve? (h : a.Mirrors pool) (request : Request) :
    (pool.serve? request).isSome = true ↔ a.Admits request := by
  cases request with
  | create => exact iff_of_true rfl trivial
  | share handle =>
      rw [NamePool.serve?, Option.isSome_map, NamePool.share?, h.handle_eq]
      simp [Admits, Option.isSome_bind]
  | intern handle text =>
      rw [NamePool.serve?, Option.isSome_map]
      cases hl : a.lines[handle]? with
      | none =>
          rw [NamePool.intern?, h.handle_eq, hl]
          exact iff_of_false nofun (Nat.not_lt.mpr (List.getElem?_eq_none_iff.mp hl))
      | some line =>
          obtain ⟨names, -, -, -, hnew⟩ := h.exists_intern hl text
          rw [hnew]
          exact iff_of_true rfl (List.getElem?_eq_some_iff.mp hl).1
  | find handle _ | isNamed handle _ _ | size handle =>
      rw [NamePool.serve?, Option.isSome_map]
      exact h.isSome_table? handle
  | resolve handle name =>
      cases hl : a.lines[handle]? with
      | none =>
          rw [NamePool.serve?, h.table?_eq_none hl, Admits, hl]
          exact iff_of_false nofun nofun
      | some line =>
          obtain ⟨names, -, ht, hlists⟩ := h.exists_table hl
          have hsize : names.texts.size = (a.texts line).eraseDups.length := hlists.size_eq
          rw [NamePool.serve?, ht, Option.bind_some, Option.isSome_map, Admits, hl, Names.text?]
          simp [hsize]

/-- The handles of a line lead to what is put in its place, and no others do. -/
theorem table?_setIfInBounds (h : a.Mirrors pool) {line : Nat} {names : Names}
    (hn : pool.tables[line]? = some names) (names' : Names) (other : Nat) :
    NamePool.table? { pool with tables := pool.tables.setIfInBounds line names' } other =
      if a.lines[other]? = some line then some names' else pool.table? other := by
  rw [NamePool.table?, NamePool.table?, h.handle_eq]
  cases ho : a.lines[other]? with
  | none => rw [if_neg nofun]; rfl
  | some line' =>
      by_cases he : line = line'
      · subst he
        rw [if_pos rfl]
        exact Array.getElem?_setIfInBounds_self_of_lt (Array.getElem?_eq_some_iff.mp hn).1
      · rw [if_neg fun e => he (Option.some.inj e).symm]
        exact Array.getElem?_setIfInBounds_ne he

/-- A pool is faithful to an account that it agrees with. -/
theorem faithful (h : a.Mirrors pool) : pool.Faithful a where
  served := h.isSome_serve?
  created := by
    rw [← h.handles, Array.length_toList]
    rfl
  copied handle hlt := by
    obtain ⟨line, hl⟩ : ∃ line, a.lines[handle]? = some line :=
      ⟨_, List.getElem?_eq_getElem hlt⟩
    rw [NamePool.reply?, NamePool.serve?, NamePool.share?, h.handle_eq, hl, ← h.handles,
      Array.length_toList]
    rfl
  seen handle line hl := by
    obtain ⟨names, -, ht, hlists⟩ := h.exists_table hl
    exact ⟨names, ht, hlists, names.nodup_texts⟩
  shared handle other := by rw [h.handle_eq, h.handle_eq]
  interned handle line text hl := by
    obtain ⟨names, ht, hlists, hn, hnew⟩ := h.exists_intern hl text
    refine ⟨names, (names.intern text).2,
      { pool with tables := pool.tables.setIfInBounds line (names.intern text).2 }, ht, ?_,
      names.texts_intern text, h.table?_setIfInBounds hn _⟩
    rw [NamePool.serve?, hnew, Option.map_some, ← hlists.number_intern text]
  sized handle line hl := by
    obtain ⟨names, -, ht, hlists⟩ := h.exists_table hl
    rw [NamePool.reply?_size, ht, Option.map_some, hlists.size_eq]
  inverse handle text name := by
    rw [NamePool.reply?_find, NamePool.resolves_iff]
    simp [Names.find?_eq_some_iff]
  compared handle name known text hk := by
    obtain ⟨names, ht, hk⟩ := NamePool.resolves_iff.mp hk
    have hsame : names.isNamed name text = (known == text) := by
      rw [Bool.eq_iff_iff, Names.isNamed_iff, hk, beq_iff_eq, Option.some_inj]
    rw [NamePool.reply?_isNamed, ht, Option.map_some, hsame]
  questions _ _ _ hq hs := NamePool.eq_of_isQuestion hq hs
  kept _ _ hs _ _ _ := NamePool.resolve_of_serveAll? hs

end Account.Mirrors

end InlineLocals
