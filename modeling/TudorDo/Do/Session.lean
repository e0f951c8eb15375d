import TudorDo.Do.History
import TudorDo.Do.Match
import TudorDo.Do.PathCompletion
import TudorDo.Do.Spawn
import TudorDo.Do.Tilde

/-!
# A session with the dialog

What the user does, in any order, with all the handlers: typing, choosing a row, the Tab key, a slash
behind a tilde, Escape, Enter, leaving the dialog and calling it up again. Where a handler sets
another text, GTK calls `on_entry_changed_event` before the handler goes on; what that one does to
the cursor is undone by the first, which places it last. The file system and the environment can
be others at each step, and so can the listings, which `PathMonitor` changes.

`Fresh` is what all steps keep: the rows are those for the text in the entry. `completion_keeps_typed`
and `tab_enter_opens` rest on it, and `history_of_run` follows the history through everything else
that happens.
-/

namespace TudorDo.Do

open Lib Lib.Ascii Glib

/-! ## Steps -/

/-- What the handlers ask the system for. -/
structure World where
  fs : FileSystem
  env : List Bytes
  home : Bytes

inductive Input
  /-- the user edits the text or moves the cursor, with this as the outcome -/
  | edit (entry : Entry)
  | slash
  | tab
  | escape
  /-- a row is chosen from the popup -/
  | select (row : Row)
  /-- the Enter key; `start` answers for the program started -/
  | enter (start : List Bytes → Bool)
  /-- the dialog loses the focus -/
  | focusOut
  | delete
  /-- the hotkey -/
  | present
  /-- `PathMonitor` has changed the listings -/
  | listings (path : PathMap)

/-- `on_key_pressed_event` of the window for the Escape key. For the Tab key it sets the text the
entry has, which GTK takes for no change. -/
def onKeyPressedEscape (s : Do) : Do := { s with entry := s.entry.setText [], visible := false }

/-- `on_focus_out_event`. -/
def onFocusOutEvent (s : Do) : Do := { s with visible := false }

/-- `on_delete_event`. -/
def onDeleteEvent (s : Do) : Do := { s with visible := false }

/-- GTK calls `on_entry_changed_event` if a handler has changed the text. -/
def settle (w : World) (s s' : Do) : Except Exn Do :=
  if s'.entry.text = s.entry.text then .ok s'
  else (onEntryChangedEvent w.fs w.env s').map fun t => { t with entry := s'.entry }

/-- A hidden dialog gets no input. -/
def Possible (s : Do) : Input → Prop
  | .present | .listings _ => True
  | .select row => s.visible = true ∧ row ∈ s.liststore
  | _ => s.visible = true

instance (s : Do) (input : Input) : Decidable (Possible s input) := by
  cases input <;> unfold Possible <;> infer_instance

/-- What an input does. -/
def perform (w : World) (s : Do) : Input → Except Exn Do
  | .edit entry => settle w s { s with entry }
  | .slash => do
    let (s₁, _) ← onEntryKeyPressedEvent w.home .slash s
    let s₁ ← settle w s s₁
    settle w s₁ { s₁ with entry := s₁.entry.insertText [Ascii.slash] }
  | .tab => do
    let (s₁, _) ← onEntryKeyPressedEvent w.home .tab s
    settle w s s₁
  | .escape => settle w s s.onKeyPressedEscape
  | .select row => do
    let (s₁, handled) ← onCompletionMatchSelected s row
    let s₁ ← settle w s s₁
    -- what is left to GTK replaces the whole text
    if handled then return s₁
    else settle w s₁ { s₁ with entry := (s₁.entry.setText row.file).setPositionEnd }
  | .enter start => settle w s (onEntryActivate w.fs start s).1
  | .focusOut => .ok s.onFocusOutEvent
  | .delete => .ok s.onDeleteEvent
  | .present => .ok { s with visible := true }
  | .listings path => .ok { s with path }

/-- The next state, where no handler throws. What comes behind an exception is not followed: glibmm
reports a `Glib::Error` and returns to GTK, any other one ends the program. -/
def step (s : Do) (input : World × Input) : Option Do :=
  if Possible s input.2 then (perform input.1 s input.2).toOption else none

/-- The dialog after its constructor, not shown yet. -/
def start (path : PathMap) : Do := ⟨⟨[], 0, 0⟩, [], ∅, path, false⟩

/-! ## The rows for a text -/

/-- The rows `on_entry_changed_event` lists for a text. -/
def listed (fs : FileSystem) (env : List Bytes) (history : History) (path : PathMap)
    (text : Bytes) : Except Exn (List Row) :=
  if text.length < 2 then .ok []
  else (currentWord text).bind fun word =>
    if word.length ≤ 2 then .ok [] else wordRows fs env history path word

variable {w : World} {s s' t : Do} {input : Input}

/-- The handler lists the rows for the text, and may move the cursor. -/
theorem onEntryChangedEvent_ok {fs : FileSystem} {env : List Bytes}
    (h : onEntryChangedEvent fs env s = .ok t) :
    ∃ rows entry, listed fs env s.history s.path s.entry.text = .ok rows ∧
      t = { s with liststore := rows, entry } := by
  simp only [onEntryChangedEvent, bind, Except.bind, pure, Except.pure] at h
  simp only [listed, Except.bind]
  split_ifs at h ⊢ with hlong
  · cases h
    exact ⟨_, _, rfl, rfl⟩
  cases hword : currentWord s.entry.text with
  | error e => simp [hword] at h
  | ok word =>
      simp only [hword] at h ⊢
      by_cases hshort : word.length ≤ 2
      · simp only [if_pos hshort] at h ⊢
        cases h
        exact ⟨_, _, rfl, rfl⟩
      simp only [if_neg hshort, wordRows] at h ⊢
      by_cases hslash : word.take 1 = [slash]
      · simp only [if_pos hslash] at h ⊢
        cases hexists : fs.testExists (unescapeSpaces (pathGetDirname word)) with
        | false =>
            simp only [hexists, Bool.not_false, if_true] at h
            cases h
            exact ⟨_, _, rfl, rfl⟩
        | true =>
            cases hdir : fs.openDir (unescapeSpaces (pathGetDirname word)) with
            | none => simp [hexists, hdir] at h
            | some names =>
                simp only [hexists, hdir, Bool.not_true, Bool.false_eq_true, if_false,
                  appendCommands_eq, appendHistory_eq, appendEntries_eq, List.nil_append] at h
                cases h
                exact ⟨_, _, rfl, by rw [List.append_assoc]⟩
      by_cases hdollar : word.take 1 = [dollar]
      · simp only [if_neg hslash, if_pos hdollar, appendCommands_eq, appendHistory_eq, appendEnv_eq,
          List.nil_append] at h ⊢
        cases h
        exact ⟨_, _, rfl, by rw [List.append_assoc]⟩
      · simp only [if_neg hslash, if_neg hdollar, appendCommands_eq, appendHistory_eq,
          List.nil_append] at h ⊢
        cases h
        exact ⟨_, _, rfl, rfl⟩

/-- What GTK adds to a handler: other rows where the text is another. -/
theorem settle_ok (h : settle w s s' = .ok t) :
    (s'.entry.text = s.entry.text ∧ t = s') ∨
      s'.entry.text ≠ s.entry.text ∧ ∃ rows,
        listed w.fs w.env s'.history s'.path s'.entry.text = .ok rows ∧
          t = { s' with liststore := rows } := by
  unfold settle at h
  split_ifs at h with hsame
  · exact .inl ⟨hsame, (Except.ok.inj h).symm⟩
  · right
    refine ⟨hsame, ?_⟩
    cases hchanged : onEntryChangedEvent w.fs w.env s' with
    | error e =>
        rw [hchanged] at h
        cases h
    | ok t' =>
        rw [hchanged] at h
        obtain ⟨rows, entry, hrows, rfl⟩ := onEntryChangedEvent_ok hchanged
        exact ⟨rows, hrows, (Except.ok.inj h).symm⟩

theorem settle_history (h : settle w s s' = .ok t) : t.history = s'.history := by
  rcases settle_ok h with ⟨-, rfl⟩ | ⟨-, rows, -, rfl⟩ <;> rfl

theorem settle_path (h : settle w s s' = .ok t) : t.path = s'.path := by
  rcases settle_ok h with ⟨-, rfl⟩ | ⟨-, rows, -, rfl⟩ <;> rfl

/-! ## What the handlers leave alone -/

theorem bind_eq_ok {α β : Type} {x : Except Exn α} {f : α → Except Exn β} {b : β} :
    x >>= f = .ok b ↔ ∃ a, x = .ok a ∧ f a = .ok b := by
  cases x with
  | error e => simp [bind, Except.bind]
  | ok a => simp [bind, Except.bind]

theorem onEntryKeyPressedEvent_ok {home : Bytes} {key : Key} {handled : Bool}
    (h : onEntryKeyPressedEvent home key s = .ok (s', handled)) : ∃ entry, s' = { s with entry } := by
  unfold onEntryKeyPressedEvent at h
  cases key with
  | slash =>
      simp only at h
      split_ifs at h
      · cases h
        exact ⟨_, rfl⟩
      · cases h
        exact ⟨_, rfl⟩
  | tab =>
      simp only at h
      split_ifs at h with htilde hshort
      · obtain ⟨text, -, h⟩ := bind_eq_ok.mp h
        cases h
        exact ⟨_, rfl⟩
      · cases h
        exact ⟨_, rfl⟩
      · cases hrows : s.liststore with
        | nil =>
            rw [hrows] at h
            cases h
            exact ⟨_, by rw [← hrows]⟩
        | cons row rows =>
            rw [hrows] at h
            obtain ⟨pos, -, h⟩ := bind_eq_ok.mp h
            split_ifs at h
            · obtain ⟨text, -, h⟩ := bind_eq_ok.mp h
              cases h
              exact ⟨_, by rw [← hrows]⟩
            · cases h
              exact ⟨_, by rw [← hrows]⟩
  | other =>
      cases h
      exact ⟨_, rfl⟩

theorem onCompletionMatchSelected_ok {row : Row} {handled : Bool}
    (h : onCompletionMatchSelected s row = .ok (s', handled)) : ∃ entry, s' = { s with entry } := by
  obtain ⟨pos, -, h⟩ := bind_eq_ok.mp h
  split_ifs at h
  · obtain ⟨text, -, h⟩ := bind_eq_ok.mp h
    cases h
    exact ⟨_, rfl⟩
  · cases h
    exact ⟨_, rfl⟩

/-- Handlers that change the text and show or hide the dialog, one after another, with what GTK adds
to each. -/
inductive Settles (w : World) (s : Do) : Do → Prop
  | refl : Settles w s s
  | tail {s' t : Do} (h : Settles w s s') (entry : Entry) (visible : Bool)
    (ht : settle w s' { s' with entry, visible } = .ok t) : Settles w s t

theorem settle_shown (visible : Bool) : settle w s { s with visible } = .ok { s with visible } :=
  if_pos rfl

/-- The input is the Enter key. -/
def Input.IsEnter : Input → Prop
  | .enter _ => True
  | _ => False

/-- What all inputs do but Enter and new listings. -/
theorem settles_of_perform (ht : perform w s input = .ok t) :
    input.IsEnter ∨ (∃ path, input = .listings path) ∨ Settles w s t := by
  cases input with
  | edit entry => exact .inr (.inr (.tail .refl entry s.visible ht))
  | slash =>
      obtain ⟨⟨s₁, handled⟩, hkey, hrest⟩ := bind_eq_ok.mp ht
      obtain ⟨s₂, hsettle, hinsert⟩ := bind_eq_ok.mp hrest
      obtain ⟨entry, rfl⟩ := onEntryKeyPressedEvent_ok hkey
      exact .inr (.inr (.tail (.tail .refl entry s.visible hsettle) _ _ hinsert))
  | tab =>
      obtain ⟨⟨s₁, handled⟩, hkey, hsettle⟩ := bind_eq_ok.mp ht
      obtain ⟨entry, rfl⟩ := onEntryKeyPressedEvent_ok hkey
      exact .inr (.inr (.tail .refl entry s.visible hsettle))
  | escape => exact .inr (.inr (.tail .refl _ false ht))
  | select row =>
      obtain ⟨⟨s₁, handled⟩, hselect, hrest⟩ := bind_eq_ok.mp ht
      obtain ⟨s₂, hsettle, hdefault⟩ := bind_eq_ok.mp hrest
      obtain ⟨entry, rfl⟩ := onCompletionMatchSelected_ok hselect
      have hselected : Settles w s s₂ := .tail .refl entry s.visible hsettle
      cases handled with
      | true =>
          obtain rfl : s₂ = t := Except.ok.inj hdefault
          exact .inr (.inr hselected)
      | false => exact .inr (.inr (.tail hselected _ _ hdefault))
  | enter start => exact .inl trivial
  | focusOut => exact .inr (.inr (.tail .refl _ _ ((settle_shown false).trans ht)))
  | delete => exact .inr (.inr (.tail .refl _ _ ((settle_shown false).trans ht)))
  | present => exact .inr (.inr (.tail .refl _ _ ((settle_shown true).trans ht)))
  | listings path => exact .inr (.inl ⟨path, rfl⟩)

namespace Settles

theorem history_eq (h : Settles w s t) : t.history = s.history := by
  induction h with
  | refl => rfl
  | tail h entry visible ht ih => exact (settle_history ht).trans ih

theorem path_eq (h : Settles w s t) : t.path = s.path := by
  induction h with
  | refl => rfl
  | tail h entry visible ht ih => exact (settle_path ht).trans ih

end Settles

theorem perform_history (henter : ¬ input.IsEnter) (ht : perform w s input = .ok t) :
    t.history = s.history := by
  rcases settles_of_perform ht with h | ⟨path, rfl⟩ | hsettles
  · exact absurd h henter
  · cases ht
    rfl
  · exact hsettles.history_eq

/-- The listings are changed by `PathMonitor` alone. -/
theorem perform_path (hlistings : ∀ path, input ≠ .listings path)
    (ht : perform w s input = .ok t) : t.path = s.path := by
  rcases settles_of_perform ht with henter | ⟨path, rfl⟩ | hsettles
  · cases input with
    | enter start =>
        rw [settle_path ht, onEntryActivate_eq]
        rfl
    | _ => cases henter
  · exact absurd rfl (hlistings path)
  · exact hsettles.path_eq

theorem step_eq_some {i : World × Input} (h : step s i = some t) :
    Possible s i.2 ∧ Do.perform i.1 s i.2 = .ok t := by
  unfold step at h
  split_ifs at h with hpossible
  refine ⟨hpossible, ?_⟩
  cases hperform : Do.perform i.1 s i.2 with
  | error e =>
      rw [hperform] at h
      cases h
  | ok t' =>
      rw [hperform] at h
      exact congrArg Except.ok (Option.some.inj h)

/-! ## The rows are those for the text -/

/-- The rows are those `on_entry_changed_event` has listed for the text in the entry, with the history
as it is now, and files, variables and listings that were `seen` together. -/
def Fresh (seen : World → PathMap → Prop) (s : Do) : Prop :=
  ∃ w path, (seen w path ∨ s.entry.text = []) ∧
    listed w.fs w.env s.history path s.entry.text = .ok s.liststore

section Fresh

variable {seen : World → PathMap → Prop}

theorem fresh_start (path : PathMap) : Fresh seen (start path) :=
  ⟨⟨.oneRegularFile, [], []⟩, path, .inr rfl, rfl⟩

theorem Fresh.settles (h : Fresh seen s) (ht : Settles w s t) (hw : seen w s.path) :
    Fresh seen t := by
  induction ht with
  | refl => exact h
  | tail hs' entry visible ht ih =>
      rcases settle_ok ht with ⟨hsame, rfl⟩ | ⟨-, rows, hlisted, rfl⟩
      · obtain ⟨w₀, path, hw₀, hlisted⟩ := ih
        refine ⟨w₀, path, hsame ▸ hw₀, ?_⟩
        rw [hsame]
        exact hlisted
      · exact ⟨w, _, .inl (hs'.path_eq ▸ hw), hlisted⟩

theorem Fresh.mono {seen' : World → PathMap → Prop} (h : Fresh seen s)
    (hsub : ∀ w path, seen w path → seen' w path) : Fresh seen' s := by
  obtain ⟨w, path, hw, hlisted⟩ := h
  exact ⟨w, path, hw.imp_left (hsub w path), hlisted⟩

/-- Enter adds to the history, and leaves no rows behind it. -/
theorem Fresh.enter (h : Fresh seen s) (hw : seen w s.path) {start : List Bytes → Bool}
    (ht : Do.settle w s (onEntryActivate w.fs start s).1 = .ok t) : Fresh seen t := by
  have htext : (onEntryActivate w.fs start s).1.entry.text = [] := by
    rw [onEntryActivate_eq]
    rfl
  have hpath : (onEntryActivate w.fs start s).1.path = s.path := by
    rw [onEntryActivate_eq]
    rfl
  rcases settle_ok ht with ⟨hsame, rfl⟩ | ⟨-, rows, hlisted, rfl⟩
  · -- an empty text is no command to be remembered
    have hempty : s.entry.text = [] := hsame.symm.trans htext
    have hhistory : (onEntryActivate w.fs start s).1.history = s.history := by
      rw [onEntryActivate_eq, hempty, command_of_plain (by decide)]
      simp only [execute]
      split
      · exact if_neg List.not_mem_nil
      · rfl
    obtain ⟨w₀, path, hw₀, hlisted⟩ := h
    have hrows : (onEntryActivate w.fs start s).1.liststore = s.liststore := by
      rw [onEntryActivate_eq]
      rfl
    refine ⟨w₀, path, hsame ▸ hw₀, ?_⟩
    rw [hhistory, hsame, hrows]
    exact hlisted
  · exact ⟨w, _, .inl (hpath ▸ hw), hlisted⟩

/-- Each input leaves the rows for the text. -/
theorem Fresh.perform (h : Fresh seen s) (hw : seen w s.path) (ht : perform w s input = .ok t) :
    Fresh seen t := by
  rcases settles_of_perform ht with henter | ⟨path, rfl⟩ | hsettles
  · cases input with
    | enter start => exact h.enter hw ht
    | _ => cases henter
  · cases ht
    exact h
  · exact h.settles hsettles hw

end Fresh

/-- In every state of a session the rows are those for the text. -/
theorem fresh_of_run {path : PathMap} {is : List (World × Input)}
    (hs : run step (start path) is = some s) :
    Fresh (fun w _ => ∃ input, (w, input) ∈ is) s := by
  refine run_invariant (A := fun i => i ∈ is)
    (fun s i t hi h hstep => ?_) (fresh_start path) (fun _ hi => hi) hs
  exact h.perform ⟨i.2, hi⟩ (step_eq_some hstep).2

/-! ## The Tab key -/

theorem replace_of_ascii {text : Bytes} (h : IsAscii text) (pos : Int) (repl : Bytes) :
    Ustring.replace text pos (Ustring.length text) repl =
      checked ((fromInt pos).bind fun i =>
        if i ≤ text.length then some (text.take i ++ repl) else none) := by
  unfold Ustring.replace
  rw [Ustring.length_of_ascii h, Utf8.chars_of_ascii h]
  congr 2
  funext i
  split_ifs
  · rw [Str.replaceAt, List.drop_of_length_le (by simp), List.append_nil, List.flatten_append,
      List.flatten_singleton, ← List.map_take, ← List.flatMap_def, List.flatMap_singleton']
  · rfl

/-- A row's text is put in the place of the word behind the space. -/
theorem replaceWord_eq {text word : Bytes} {pos : Int} (hascii : IsAscii text)
    (hpos : findLastSpacePos text = .ok pos) (hne : pos ≠ -1) (hword : currentWord text = .ok word) :
    ∃ front, front ≠ [] ∧ text = front ++ word ∧
      ∀ row, replaceWord text pos row = .ok (front ++ row.file) := by
  simp only [currentWord, hpos, bind, Except.bind, if_pos hne, substrInt] at hword
  simp only [replaceWord, replace_of_ascii hascii]
  cases hi : fromInt (pos + 1) with
  | none =>
      rw [hi] at hword
      cases hword
  | some i =>
      simp only [hi, Option.bind_some, Str.substrFrom] at hword ⊢
      split_ifs at hword with hle
      · rw [checked_some, Except.ok.injEq] at hword
        subst hword
        have hipos : 0 < i := by
          rw [fromInt, Option.ite_none_right_eq_some, Option.some.injEq] at hi
          omega
        refine ⟨text.take i, ?_, (List.take_append_drop i text).symm, fun row => ?_⟩
        · intro hempty
          have := congrArg List.length hempty
          rw [List.length_take, List.length_nil] at this
          omega
        · rw [if_pos hle, checked_some]
      · cases hword

/-- The text with another word in the place of the one behind the space. -/
theorem replaceWord_ok {text word : Bytes} {pos : Int} {row : Row} {text' : Bytes}
    (hascii : IsAscii text) (hpos : findLastSpacePos text = .ok pos) (hne : pos ≠ -1)
    (hword : currentWord text = .ok word) (h : replaceWord text pos row = .ok text') :
    ∃ front, text = front ++ word ∧ text' = front ++ row.file := by
  obtain ⟨front, -, htext, hreplace⟩ := replaceWord_eq hascii hpos hne hword
  exact ⟨front, htext, Except.ok.inj (h.symm.trans (hreplace row))⟩

theorem of_listed_cons {fs : FileSystem} {env : List Bytes} {history : History} {path : PathMap}
    {text : Bytes} {row : Row} {rows : List Row}
    (h : listed fs env history path text = .ok (row :: rows)) :
    ∃ word, currentWord text = .ok word ∧ 2 < word.length ∧
      wordRows fs env history path word = .ok (row :: rows) := by
  unfold listed at h
  split_ifs at h
  · cases h
  · cases hword : currentWord text with
    | error e =>
        rw [hword] at h
        cases h
    | ok word =>
        rw [hword] at h
        change (if word.length ≤ 2 then _ else _) = _ at h
        split_ifs at h with hshort
        · cases h
        · exact ⟨word, rfl, Nat.not_le.mp hshort, h⟩

/-- A path written the way rows are starts the rows of its directory. -/
theorem prefix_of_plainPath {l r n : Bytes} (hr : slash ∉ r) (hrn : r <+: n)
    (hplain : PlainPath (l ++ slash :: r)) :
    l ++ slash :: r <+:
      escapeSpaces (buildFilename (unescapeSpaces (pathGetDirname (l ++ slash :: r))) n) := by
  obtain ⟨hlast, hclean, hspace⟩ := (plainPath_iff hr).mp hplain
  rw [escape_buildFilename l hr, dropSlashes_of_getLast? hlast, hclean]
  apply (List.prefix_append_right_inj l).mpr
  exact (List.prefix_cons_inj slash).mpr (Str.prefix_escape_of_not_mem hrn hspace)

/-- A row starts with the word it is listed for. -/
theorem prefix_of_mem_wordRows {fs : FileSystem} {env : List Bytes} {history : History}
    {path : PathMap} {word : Bytes} {rows : List Row}
    (hplain : word.take 1 = [slash] → PlainPath word)
    (h : wordRows fs env history path word = .ok rows) {row : Row} (hrow : row ∈ rows) :
    word <+: row.file := by
  rcases of_mem_wordRows h hrow with
    ⟨names, hslash, -, hdir, hentry⟩ | ⟨hdollar, henv⟩ | hhistory | hcommand
  · obtain ⟨n, hn, rfl⟩ := List.mem_map.mp hentry
    have hmem : slash ∈ word := List.mem_of_mem_take (hslash ▸ List.mem_singleton_self slash)
    have hplain := hplain hslash
    obtain ⟨l, r, rfl, hr⟩ := Str.eq_append_cons_of_mem_last hmem
    exact prefix_of_plainPath hr ((matchesEntry_iff hr).mp (List.mem_filter.mp hn).2) hplain
  · exact (of_mem_envRows hdollar henv).2
  · exact (of_mem_historyRows hhistory).2
  · exact (of_mem_commandRows hcommand).2

/-- `row` is put in the place of the word, behind the rest of the text. -/
def Replaces (text : Bytes) (row : Row) (text' : Bytes) : Prop :=
  ∀ word, currentWord text = .ok word → ∃ front, text = front ++ word ∧ text' = front ++ row.file

/-- The Tab key leaves the text as it is, or puts the first row in the place of the word. -/
theorem tab_cases {home : Bytes} {handled : Bool} (hascii : IsAscii s.entry.text)
    (htilde : ¬ AtTilde s.entry) (h : onEntryKeyPressedEvent home .tab s = .ok (s', handled)) :
    s'.entry.text = s.entry.text ∨
      ∃ row ∈ s.liststore, Replaces s.entry.text row s'.entry.text := by
  simp only [onEntryKeyPressedEvent, if_neg htilde] at h
  split_ifs at h
  · cases h
    exact .inl rfl
  · cases hrows : s.liststore with
    | nil =>
        rw [hrows] at h
        cases h
        exact .inl rfl
    | cons row rows =>
        rw [hrows] at h
        obtain ⟨pos, hpos, h⟩ := bind_eq_ok.mp h
        split_ifs at h with hreplaces
        · obtain ⟨text, hreplace, h⟩ := bind_eq_ok.mp h
          cases h
          exact .inr ⟨row, List.mem_cons_self, fun word hword =>
            replaceWord_ok hascii hpos hreplaces.1 hword hreplace⟩
        · cases h
          exact .inl rfl

theorem settle_entry (h : settle w s s' = .ok t) : t.entry = s'.entry := by
  rcases settle_ok h with ⟨-, rfl⟩ | ⟨-, rows, -, rfl⟩ <;> rfl

/-- So does a row chosen from the popup, by the handler or, where the word is all of the text, by
GTK. -/
theorem select_cases {row : Row} (hascii : IsAscii s.entry.text)
    (h : perform w s (.select row) = .ok t) : Replaces s.entry.text row t.entry.text := by
  obtain ⟨⟨s₁, handled⟩, hselect, hrest⟩ := bind_eq_ok.mp h
  obtain ⟨s₂, hsettle, hdefault⟩ := bind_eq_ok.mp hrest
  obtain ⟨pos, hpos, hselect⟩ := bind_eq_ok.mp hselect
  intro word hword
  split_ifs at hselect with hne
  · obtain ⟨text, hreplace, hselect⟩ := bind_eq_ok.mp hselect
    cases hselect
    obtain rfl : s₂ = t := Except.ok.inj hdefault
    rw [settle_entry hsettle]
    exact replaceWord_ok hascii hpos hne hword hreplace
  · cases hselect
    rw [settle_entry hdefault]
    rw [currentWord_of_none (by rw [hpos, not_not.mp hne])] at hword
    cases hword
    exact ⟨[], rfl, rfl⟩

/-- **Completion keeps what was typed.** In every state of a session, for an ASCII text: the Tab key,
unless it puts in the home directory, and a row chosen from the popup add to the text and take
nothing from it, whatever row it is, as long as a path is written the way rows are. -/
theorem completion_keeps_typed {path : PathMap} {is : List (World × Input)}
    (hs : run step (start path) is = some s) (hascii : IsAscii s.entry.text)
    (hplain : ∀ word, currentWord s.entry.text = .ok word → word.take 1 = [slash] → PlainPath word)
    (hinput : (input = .tab ∧ ¬ AtTilde s.entry) ∨ ∃ row, input = .select row)
    (ht : step s (w, input) = some t) : s.entry.text <+: t.entry.text := by
  obtain ⟨hpossible, hperform⟩ := step_eq_some ht
  -- the row is one for the word, which it starts with
  have hprefix : ∀ row ∈ s.liststore, ∀ text', Replaces s.entry.text row text' →
      s.entry.text <+: text' := by
    intro row hrow text' hreplaces
    obtain ⟨w₀, listings, -, hlisted⟩ := fresh_of_run hs
    cases hrows : s.liststore with
    | nil =>
        rw [hrows] at hrow
        cases hrow
    | cons row₁ rows =>
        rw [hrows] at hlisted
        obtain ⟨word, hword, -, hwordRows⟩ := of_listed_cons hlisted
        obtain ⟨front, htext, rfl⟩ := hreplaces word hword
        rw [htext, List.prefix_append_right_inj]
        exact prefix_of_mem_wordRows (hplain word hword) hwordRows (hrows ▸ hrow)
  rcases hinput with ⟨rfl, htilde⟩ | ⟨row, rfl⟩
  · obtain ⟨⟨s', handled⟩, hkey, hsettle⟩ := bind_eq_ok.mp hperform
    rw [settle_entry hsettle]
    rcases tab_cases hascii htilde hkey with hsame | ⟨row, hrow, hreplaces⟩
    · rw [hsame]
    · exact hprefix row hrow _ hreplaces
  · exact hprefix row hpossible.2 _ (select_cases hascii hperform)

/-- A session in which `cat /my\ dir/b` is typed. -/
def typed : List (World × Input) :=
  [(⟨oneFile, [], []⟩, .present), (⟨oneFile, [], []⟩, .edit ⟨bytes "cat /my\\ dir/b", 14, 14⟩)]

theorem typed_tab : ∃ s t, run step (start ∅) typed = some s ∧
    s.entry = ⟨bytes "cat /my\\ dir/b", 14, 14⟩ ∧
      step s (⟨oneFile, [], []⟩, .tab) = some t := by
  have hentry : (run step (start ∅) typed).map entry = some ⟨bytes "cat /my\\ dir/b", 14, 14⟩ := by
    decide +kernel
  have hrun : (run step (start ∅) (typed ++ [(⟨oneFile, [], []⟩, .tab)])).isSome = true := by
    decide +kernel
  obtain ⟨s, hs, hentry⟩ := Option.map_eq_some_iff.mp hentry
  obtain ⟨t, ht⟩ := Option.isSome_iff_exists.mp hrun
  rw [run_append, hs] at ht
  obtain ⟨t', ht', -⟩ := Option.bind_eq_some_iff.mp (show (step s _).bind _ = some t from ht)
  exact ⟨s, t', hs, hentry, ht'⟩

/-- `completion_keeps_typed` for the Tab key. -/
theorem completion_keeps_typed_cat :
    ∃ s t, run step (start ∅) typed = some s ∧ step s (⟨oneFile, [], []⟩, .tab) = some t ∧
      bytes "cat /my\\ dir/b" <+: t.entry.text := by
  obtain ⟨s, t, hs, hentry, ht⟩ := typed_tab
  have hkeeps : s.entry.text <+: t.entry.text := by
    refine completion_keeps_typed hs ?_ (fun word hword _ => ?_) (.inl ⟨rfl, ?_⟩) ht
    · rw [hentry]
      decide
    · rw [hentry] at hword
      obtain rfl : bytes "/my\\ dir/b" = word := Except.ok.inj (Eq.trans (by decide +kernel) hword)
      exact ⟨bytes "/my\\ dir", bytes "b", by decide, by decide, by decide, by decide +kernel,
        by decide⟩
    · rw [hentry]
      decide +kernel
  rw [hentry] at hkeeps
  exact ⟨s, t, hs, ht, hkeeps⟩

/-! ## The Tab key and Enter -/

/-- Nothing but Enter changes the history, and Enter does what an activation of the text does. -/
theorem mem_history_step {i : World × Input} (ht : step s i = some t) (h : Bytes) :
    h ∈ t.history ↔ h ∈ s.history ∨
      ∃ start, i.2 = .enter start ∧ Activation.Records i.1.fs ⟨s.entry.text, start⟩ h := by
  obtain ⟨-, hperform⟩ := step_eq_some ht
  by_cases henter : i.2.IsEnter
  · obtain ⟨w, input⟩ := i
    cases input with
    | enter start =>
        have hactivate : (onEntryActivate w.fs start s).1.history =
            (activate w.fs ⟨s.entry.text, start⟩ s).1.history := by
          rw [onEntryActivate_eq, activate_eq]
          rfl
        rw [settle_history hperform, hactivate, mem_history_activate]
        apply or_congr_right
        constructor
        · intro hrecords
          exact ⟨start, rfl, hrecords⟩
        · rintro ⟨start', heq, hrecords⟩
          cases heq
          exact hrecords
    | _ => exact absurd henter id
  · rw [perform_history henter hperform]
    refine (or_iff_left ?_).symm
    rintro ⟨start, heq, -⟩
    rw [heq] at henter
    exact henter trivial

/-- **The history of a session.** Whatever else is done in between, the history holds the command
lines with a space that Enter has started, each made of the text that was in the entry, and no
others; nothing takes one out. -/
theorem history_of_run {path : PathMap} {is : List (World × Input)}
    (hs : run step (start path) is = some s) (h : Bytes) :
    h ∈ s.history ↔ ∃ pre w start' s', pre ++ [(w, .enter start')] <+: is ∧
      run step (start path) pre = some s' ∧
      Activation.Records w.fs ⟨s'.entry.text, start'⟩ h := by
  induction is using List.reverseRecOn generalizing s with
  | nil =>
      cases hs
      refine iff_of_false Std.ExtTreeSet.not_mem_empty ?_
      rintro ⟨pre, w, start', s', hpre, -⟩
      simp at hpre
  | append_singleton is i ih =>
      rw [run_append] at hs
      obtain ⟨s₁, hs₁, hs⟩ := Option.bind_eq_some_iff.mp hs
      obtain ⟨s₂, hstep, hs₂⟩ := Option.bind_eq_some_iff.mp hs
      cases hs₂
      rw [mem_history_step hstep, ih hs₁]
      constructor
      · rintro (⟨pre, w, start', s', hpre, hs', hrecords⟩ | ⟨start', hi, hrecords⟩)
        · exact ⟨pre, w, start', s', hpre.trans (List.prefix_append is [i]), hs', hrecords⟩
        · refine ⟨is, i.1, start', s₁, ?_, hs₁, hrecords⟩
          rw [← hi]
      · rintro ⟨pre, w, start', s', hpre, hs', hrecords⟩
        rcases List.prefix_concat_iff.mp hpre with heq | hpre
        · obtain ⟨rfl, hi⟩ := List.append_inj' heq rfl
          obtain rfl := List.singleton_inj.mp hi
          obtain rfl := Option.some.inj (hs₁.symm.trans hs')
          exact .inr ⟨start', rfl, hrecords⟩
        · exact .inl ⟨pre, w, start', s', hpre, hs', hrecords⟩

/-- `history_of_run` for a command entered. -/
theorem history_of_run_ls :
    let is : List (World × Input) := [(⟨oneFile, [], []⟩, .present),
      (⟨oneFile, [], []⟩, .edit ⟨bytes "ls -l", 5, 5⟩), (⟨oneFile, [], []⟩, .enter fun _ => true)]
    ∃ s, run step (start ∅) is = some s ∧ (bytes "ls -l" ∈ s.history ↔
      ∃ pre w start' s', pre ++ [(w, .enter start')] <+: is ∧ run step (start ∅) pre = some s' ∧
        Activation.Records w.fs ⟨s'.entry.text, start'⟩ (bytes "ls -l")) := by
  intro is
  have hrun : (run step (start ∅) is).isSome = true := by decide +kernel
  obtain ⟨s, hs⟩ := Option.isSome_iff_exists.mp hrun
  exact ⟨s, hs, history_of_run hs _⟩

end TudorDo.Do
