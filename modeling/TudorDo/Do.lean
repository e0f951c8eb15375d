import Mathlib.Data.List.TakeDrop
import Std.Data.ExtTreeSet
import TudorDo.Glib
import TudorDo.Monitor
import TudorDo.Util

/-!
# `tudor-do.cpp`: the dialog

The handlers of the entry, each a function of the dialog's state. `std::string` and `Glib::ustring`
are both byte strings here; what differs is the unit of a position, bytes for the first and
characters for the second (`Ustring`). Where a handler sets another text, `set_text` has GTK call
`on_entry_changed_event` before it returns; the handlers are given here without that call, and
`Do.perform` puts the two together.

`onEntryChangedEvent_of_word` says which rows the completion list gets (`wordRows`): those of the
branch the typed word belongs to, then those of the history and those of the listings.
-/

namespace TudorDo

open Lib Lib.Ascii

/-! ## Strings addressed by character -/

namespace Ustring

/-- `length()`, and `size()`. -/
def length (s : Bytes) : Nat := (Utf8.chars s).length

/-- `substr(i, n)`. -/
def substr (s : Bytes) (i n : Nat) : Option Bytes :=
  (Str.substr (Utf8.chars s) i n).map List.flatten

/-- `substr(pos, -1)`. -/
def substrInt (s : Bytes) (pos : Int) : Except Exn Bytes :=
  checked ((fromInt pos).bind fun i => (Str.substrFrom (Utf8.chars s) i).map List.flatten)

/-- `replace(pos, n, repl)`. -/
def replace (s : Bytes) (pos : Int) (n : Nat) (repl : Bytes) : Except Exn Bytes :=
  checked ((fromInt pos).bind fun i =>
    if i ≤ length s then some (Str.replaceAt (Utf8.chars s) i n [repl]).flatten else none)

end Ustring

/-! ## The state -/

/-- `m_Entry`: its text, and the two ends of the selection, of which `position` is the cursor. -/
structure Entry where
  text : Bytes
  position : Nat
  bound : Nat
  deriving DecidableEq

namespace Entry

/-- `set_text`: the cursor is back at the start. -/
def setText (_ : Entry) (text : Bytes) : Entry := ⟨text, 0, 0⟩

/-- `set_position(-1)`. -/
def setPositionEnd (e : Entry) : Entry :=
  { e with position := Ustring.length e.text, bound := Ustring.length e.text }

/-- `select_region(start, -1)`. -/
def selectToEnd (e : Entry) (start : Nat) : Entry :=
  { e with position := Ustring.length e.text, bound := min start (Ustring.length e.text) }

@[simp] theorem setText_text (e : Entry) (text : Bytes) : (e.setText text).text = text := rfl

@[simp] theorem setPositionEnd_text (e : Entry) : e.setPositionEnd.text = e.text := rfl

@[simp] theorem selectToEnd_text (e : Entry) (start : Nat) : (e.selectToEnd start).text = e.text :=
  rfl

end Entry

/-- A row of `m_Liststore`: `m_col_dir` and `m_col_file`. -/
structure Row where
  dir : Bytes
  file : Bytes
  deriving DecidableEq

/-- `Do::t_history`. -/
abbrev History := Std.ExtTreeSet Bytes

/-- The dialog. -/
structure Do where
  entry : Entry
  liststore : List Row
  history : History
  path : PathMap
  visible : Bool

/-- The dialog with a text typed and rows listed for it, the cursor at the end, and nothing else
known yet. -/
def Do.typing (text : Bytes) (rows : List Row) : Do :=
  ⟨⟨text, Ustring.length text, Ustring.length text⟩, rows, ∅, ∅, true⟩

/-- The keys the entry's handler looks at. -/
inductive Key
  | slash
  | tab
  | other
  deriving DecidableEq

namespace Do

open Glib

/-- `liststore_append`. -/
def liststoreAppend (s : Do) (dirname filename : Bytes) : Do :=
  { s with liststore := s.liststore ++ [⟨dirname, filename⟩] }

/-! ## `on_entry_changed_event` -/

/-- The text left of the space is cut off: the word that is completed. -/
def currentWord (text : Bytes) : Except Exn Bytes := do
  let spacePos ← findLastSpacePos text
  if spacePos ≠ -1 then substrInt text (spacePos + 1) else .ok text

/-- `text.length() <= s.length() && s.compare(0, text.length(), text) == 0`. -/
def startsWith (s text : Bytes) : Bool :=
  decide (text.length ≤ s.length) && decide (s.take text.length = text)

/-- An entry of the typed directory is suggested. -/
def matchesEntry (text name : Bytes) : Bool :=
  decide (text.drop (text.length - 1) = [slash])
    || decide (name.take (pathGetBasename text).length = pathGetBasename text)

/-- The loop over the entries of the directory. -/
def appendEntries (text dirName : Bytes) (names : List Bytes) (s : Do) : Do :=
  names.foldl (fun s name =>
    if matchesEntry text name then
      s.liststoreAppend dirName (escapeSpaces (buildFilename dirName name))
    else s) s

/-- The loop over the names of the environment. -/
def appendEnv (text : Bytes) (env : List Bytes) (s : Do) : Do :=
  let key := text.drop 1
  env.foldl (fun s it =>
    if it.take key.length = key then s.liststoreAppend [] (dollar :: it) else s) s

/-- The loop over `m_history`. -/
def appendHistory (text : Bytes) (s : Do) : Do :=
  s.history.toList.foldl (fun s it =>
    if startsWith it text then s.liststoreAppend [] it else s) s

/-- The loops over `m_path`. -/
def appendCommands (text : Bytes) (s : Do) : Do :=
  s.path.toList.foldl (fun s listing =>
    listing.2.foldl (fun s it =>
      if startsWith it text then s.liststoreAppend listing.1 it else s) s) s

/-- `on_entry_changed_event`. `env` is what `listenv` returns. -/
def onEntryChangedEvent (fs : FileSystem) (env : List Bytes) (s : Do) : Except Exn Do := do
  let s := { s with liststore := [] }
  if s.entry.text.length < 2 then return s
  let text ← currentWord s.entry.text
  if text.length ≤ 2 then return s
  if text.take 1 = [slash] then
    let s := { s with entry := s.entry.setPositionEnd }
    let dirName := unescapeSpaces (pathGetDirname text)
    if !fs.testExists dirName then return s
    match fs.openDir dirName with
    -- `Glib::Dir` throws and the handler does not catch
    | none => .error .fileError
    | some names => return ((s.appendEntries text dirName names).appendHistory text).appendCommands text
  else if text.take 1 = [dollar] then
    return ((s.appendEnv text env).appendHistory text).appendCommands text
  else
    return (s.appendHistory text).appendCommands text

/-! ## The handlers of the completion -/

/-- The string `on_completion_match` compares the start of a row with. -/
def matchString (key : Bytes) : Except Exn Bytes := do
  let spacePos ← findLastSpacePos key
  if spacePos ≠ -1 then Ustring.substrInt key (spacePos + 1) else .ok key

/-- `on_completion_match`, with `ustring::lowercase` as a parameter. The function has no `return`
behind its last test: `none` is a call that comes to its end there, whose result is undefined.
Strings are equal here when their bytes are. -/
def onCompletionMatch (lowercase : Bytes → Bytes) (key : Bytes) (iter : Option Row) :
    Except Exn (Option Bool) :=
  match iter with
  | none => .ok (some false)
  | some row => do
    let filename := lowercase row.file
    let matchString ← matchString key
    if Ustring.length matchString ≠ 0 ∧ Ustring.length matchString > 2 then
      let start ← checked (Ustring.substr filename 0 (Ustring.length matchString))
      if start = matchString then return some true
    -- the end of the function, without a `return`
    return none

/-- What `on_completion_match_selected` and the Tab key do with the row chosen. -/
def replaceWord (text : Bytes) (spacePos : Int) (row : Row) : Except Exn Bytes :=
  Ustring.replace text (spacePos + 1) (Ustring.length text) row.file

/-- `on_completion_match_selected`. -/
def onCompletionMatchSelected (s : Do) (row : Row) : Except Exn (Do × Bool) := do
  let text := s.entry.text
  let spacePos ← findLastSpacePos text
  if spacePos ≠ -1 then
    let text ← replaceWord text spacePos row
    return ({ s with entry := (s.entry.setText text).setPositionEnd }, true)
  return (s, false)

/-- The Tab key finds a `~` before the cursor, at the end of the text. -/
def AtTilde (e : Entry) : Prop :=
  Ustring.length e.text ≠ 0 ∧ Ustring.substr e.text (Ustring.length e.text - 1) 1 = some [tilde] ∧
    e.position = Ustring.length e.text

instance (e : Entry) : Decidable (AtTilde e) := inferInstanceAs (Decidable (_ ∧ _ ∧ _))

/-- `on_entry_key_pressed_event`. `home` is what `getenv` returns for `HOME`. -/
def onEntryKeyPressedEvent (home : Bytes) (key : Key) (s : Do) : Except Exn (Do × Bool) :=
  let text := s.entry.text
  match key with
  | .slash =>
    let len := text.length - 1
    if len > 0 ∧ text.drop len = [tilde] then
      .ok ({ s with entry := (s.entry.setText (text.take len ++ home)).setPositionEnd }, false)
    else .ok (s, false)
  | .tab =>
    if AtTilde s.entry then do
      let home := home ++ [slash]
      let text ← Ustring.replace text (Ustring.length text - 1) home.length home
      return ({ s with entry := (s.entry.setText text).setPositionEnd }, true)
    else if Ustring.length text = 0 ∨ Ustring.length text ≤ 2 then .ok (s, true)
    else
      match s.liststore with
      | [] => .ok ({ s with entry := s.entry.setPositionEnd }, true)
      | row :: _ => do
        let pos ← findLastSpacePos text
        if pos ≠ -1 ∧ s.entry.bound = s.entry.position then
          let cursorPos := s.entry.position
          let text ← replaceWord text pos row
          return ({ s with entry := (s.entry.setText text).selectToEnd cursorPos }, true)
        return ({ s with entry := s.entry.setPositionEnd }, true)
  | .other => .ok (s, false)

/-! ## Running a command -/

/-- `execute`; the dialog that reports an error of the spawn leaves no trace in the state. -/
def execute (start : List Bytes → Bool) (command : Bytes) (s : Do) : Do × Spawn :=
  let spawn := spawnCommandLineAsync start command
  let history :=
    match spawn with
    | .started _ => if space ∈ command then s.history.insert command else s.history
    | _ => s.history
  ({ s with entry := s.entry.setText [], history := history, visible := false }, spawn)

/-- `on_entry_activate`. -/
def onEntryActivate (fs : FileSystem) (start : List Bytes → Bool) (s : Do) : Do × Spawn :=
  let text := s.entry.text
  if text.take 1 = [slash] ∨ text.take 7 = bytes "http://" then
    if fs.testIsRegular text ∧ fs.accessX text then s.execute start text
    else s.execute start (bytes "xdg-open " ++ text)
  else s.execute start text

/-! ## What is suggested for a word -/

/-- The suggestions among the entries of the typed directory. -/
def entryRows (text dirName : Bytes) (names : List Bytes) : List Row :=
  (names.filter (matchesEntry text)).map fun name =>
    ⟨dirName, escapeSpaces (buildFilename dirName name)⟩

/-- The suggestions from the environment. -/
def envRows (text : Bytes) (env : List Bytes) : List Row :=
  (env.filter fun it => it.take (text.drop 1).length = text.drop 1).map fun it => ⟨[], dollar :: it⟩

/-- The suggestions from the history. -/
def historyRows (history : History) (text : Bytes) : List Row :=
  (history.toList.filter (startsWith · text)).map fun it => ⟨[], it⟩

/-- The suggestions from the listings. -/
def commandRows (path : PathMap) (text : Bytes) : List Row :=
  path.toList.flatMap fun listing =>
    (listing.2.filter (startsWith · text)).map fun it => ⟨listing.1, it⟩

/-- All the suggestions for a word. -/
def wordRows (fs : FileSystem) (env : List Bytes) (history : History) (path : PathMap)
    (text : Bytes) : Except Exn (List Row) :=
  let known := historyRows history text ++ commandRows path text
  if text.take 1 = [slash] then
    let dirName := unescapeSpaces (pathGetDirname text)
    if fs.testExists dirName then
      match fs.openDir dirName with
      | none => .error .fileError
      | some names => .ok (entryRows text dirName names ++ known)
    else .ok []
  else if text.take 1 = [dollar] then .ok (envRows text env ++ known)
  else .ok known

theorem startsWith_iff {s text : Bytes} : startsWith s text = true ↔ text <+: s := by
  rw [startsWith, Bool.and_eq_true, decide_eq_true_eq, decide_eq_true_eq, List.prefix_iff_eq_take]
  constructor
  · rintro ⟨-, h⟩
    exact h.symm
  · intro h
    refine ⟨?_, h.symm⟩
    have := congrArg List.length h
    rw [List.length_take] at this
    omega

/-- The entries suggested are those the last component typed is the start of; behind a slash it is
empty. -/
theorem matchesEntry_iff {l r name : Bytes} (hr : slash ∉ r) :
    matchesEntry (l ++ slash :: r) name = true ↔ r <+: name := by
  rw [matchesEntry, Bool.or_eq_true, decide_eq_true_eq, decide_eq_true_eq]
  by_cases hne : r = []
  · subst hne
    simp
  · have hlast : (l ++ slash :: r).drop ((l ++ slash :: r).length - 1) ≠ [slash] := by
      intro h
      rw [List.drop_length_sub_one (by simp), List.getLast_append_of_right_ne_nil _ _ (by simp),
        List.getLast_cons hne] at h
      exact hr (List.singleton_inj.mp h ▸ List.getLast_mem hne)
    rw [pathGetBasename_append l hr hne, List.prefix_iff_eq_take]
    exact ⟨fun h => (h.resolve_left hlast).symm, fun h => .inr h.symm⟩

theorem of_mem_historyRows {history : History} {text : Bytes} {row : Row}
    (h : row ∈ historyRows history text) : row.dir = [] ∧ text <+: row.file := by
  obtain ⟨it, hit, rfl⟩ := List.mem_map.mp h
  exact ⟨rfl, startsWith_iff.mp (List.mem_filter.mp hit).2⟩

theorem of_mem_commandRows {path : PathMap} {text : Bytes} {row : Row}
    (h : row ∈ commandRows path text) :
    row.file ∈ path.listing row.dir ∧ text <+: row.file := by
  obtain ⟨⟨d, listing⟩, hd, hrow⟩ := List.mem_flatMap.mp h
  obtain ⟨it, hit, rfl⟩ := List.mem_map.mp hrow
  refine ⟨?_, startsWith_iff.mp (List.mem_filter.mp hit).2⟩
  have hget := Std.ExtTreeMap.mem_toList_iff_getElem?_eq_some.mp hd
  rw [PathMap.listing, Std.ExtTreeMap.getD_eq_getD_getElem?, hget]
  exact List.mem_of_mem_filter hit

theorem of_mem_envRows {env : List Bytes} {text : Bytes} {row : Row}
    (htext : text.take 1 = [dollar]) (h : row ∈ envRows text env) :
    row.dir = [] ∧ text <+: row.file := by
  obtain ⟨it, hit, rfl⟩ := List.mem_map.mp h
  refine ⟨rfl, ?_⟩
  have hkey : it.take (text.drop 1).length = text.drop 1 := by simpa using (List.mem_filter.mp hit).2
  have hcut : text = dollar :: text.drop 1 := by
    simpa [htext] using (List.take_append_drop 1 text).symm
  rw [hcut, List.prefix_cons_inj, List.prefix_iff_eq_take]
  exact hkey.symm

/-- Where the suggestions come from. -/
theorem of_mem_wordRows {fs : FileSystem} {env : List Bytes} {history : History} {path : PathMap}
    {text : Bytes} {rows : List Row} (h : wordRows fs env history path text = .ok rows) {row : Row}
    (hrow : row ∈ rows) :
    (∃ names, text.take 1 = [slash] ∧
      fs.testExists (unescapeSpaces (pathGetDirname text)) = true ∧
      fs.openDir (unescapeSpaces (pathGetDirname text)) = some names ∧
      row ∈ entryRows text (unescapeSpaces (pathGetDirname text)) names) ∨
    (text.take 1 = [dollar] ∧ row ∈ envRows text env) ∨ row ∈ historyRows history text ∨
    row ∈ commandRows path text := by
  simp only [wordRows] at h
  split_ifs at h with hslash hexists hdollar
  · cases hdir : fs.openDir (unescapeSpaces (pathGetDirname text)) with
    | none => simp [hdir] at h
    | some names =>
        simp only [hdir, Except.ok.injEq] at h
        subst h
        rcases List.mem_append.mp hrow with hrow | hrow
        · exact .inl ⟨names, hslash, hexists, rfl, hrow⟩
        · exact .inr (.inr (List.mem_append.mp hrow))
  · cases h
    simp at hrow
  · cases h
    rcases List.mem_append.mp hrow with hrow | hrow
    · exact .inr (.inl ⟨hdollar, hrow⟩)
    · exact .inr (.inr (List.mem_append.mp hrow))
  · cases h
    exact .inr (.inr (List.mem_append.mp hrow))

/-- A loop that appends a row for some of the elements it goes through. -/
theorem foldl_liststoreAppend {α : Type} (xs : List α) (p : α → Prop) [DecidablePred p]
    (row : α → Row) (s : Do) :
    xs.foldl (fun s x => if p x then s.liststoreAppend (row x).dir (row x).file else s) s =
      { s with liststore := s.liststore ++ (xs.filter p).map row } := by
  induction xs generalizing s with
  | nil => simp
  | cons x xs ih =>
      rw [List.foldl_cons, ih]
      by_cases hx : p x
      · simp [hx, liststoreAppend]
      · simp [hx]

theorem appendEntries_eq (text dirName : Bytes) (names : List Bytes) (s : Do) :
    s.appendEntries text dirName names =
      { s with liststore := s.liststore ++ entryRows text dirName names } := by
  have := foldl_liststoreAppend names (fun name => matchesEntry text name = true)
    (fun name => ⟨dirName, escapeSpaces (buildFilename dirName name)⟩) s
  simpa [appendEntries, entryRows] using this

theorem appendEnv_eq (text : Bytes) (env : List Bytes) (s : Do) :
    s.appendEnv text env = { s with liststore := s.liststore ++ envRows text env } :=
  foldl_liststoreAppend env _ (fun it => ⟨[], dollar :: it⟩) s

theorem appendHistory_eq (text : Bytes) (s : Do) :
    s.appendHistory text = { s with liststore := s.liststore ++ historyRows s.history text } := by
  have := foldl_liststoreAppend s.history.toList (fun it => startsWith it text = true)
    (fun it => ⟨[], it⟩) s
  simpa [appendHistory, historyRows] using this

theorem appendCommands_eq (text : Bytes) (s : Do) :
    s.appendCommands text = { s with liststore := s.liststore ++ commandRows s.path text } := by
  unfold appendCommands commandRows
  generalize s.path.toList = listings
  induction listings generalizing s with
  | nil => simp
  | cons listing listings ih =>
      have hinner := foldl_liststoreAppend listing.2 (fun it => startsWith it text = true)
        (fun it => ⟨listing.1, it⟩) s
      simp only [Bool.decide_eq_true] at hinner
      rw [List.foldl_cons, hinner, ih, List.flatMap_cons, List.append_assoc]

theorem substrInt_suffix {s w : Bytes} {pos : Int} (h : substrInt s pos = .ok w) : w <:+ s := by
  unfold substrInt fromInt Str.substrFrom at h
  split_ifs at h with h₁
  · simp only [Option.bind_some] at h
    split_ifs at h
    · cases h
      exact List.drop_suffix _ _
    · cases h
  · cases h

theorem currentWord_suffix {text w : Bytes} (h : currentWord text = .ok w) : w <:+ text := by
  unfold currentWord at h
  cases hpos : findLastSpacePos text with
  | error e =>
      rw [hpos] at h
      cases h
  | ok pos =>
      rw [hpos] at h
      change (if pos ≠ -1 then substrInt text (pos + 1) else .ok text) = .ok w at h
      split_ifs at h
      · exact substrInt_suffix h
      · cases h
        exact List.suffix_rfl

theorem currentWord_of_none {text : Bytes} (h : findLastSpacePos text = .ok (-1)) :
    currentWord text = .ok text := by
  simp [currentWord, h, bind, Except.bind]

theorem currentWord_of_pos {text : Bytes} {k : Nat} (h : findLastSpacePos text = .ok k)
    (hk : k + 1 ≤ text.length) : currentWord text = .ok (text.drop (k + 1)) := by
  have hne : ((k : Int) ≠ -1) := by omega
  have hpos : fromInt ((k : Int) + 1) = some (k + 1) := fromInt_natCast (k + 1)
  simp only [currentWord, h, bind, Except.bind, if_pos hne, substrInt, hpos, Option.bind_some,
    Str.substrFrom, if_pos hk, checked_some]

theorem currentWord_append_cons {l w : Bytes} {c : UInt8}
    (h : findLastSpacePos (l ++ c :: w) = .ok l.length) : currentWord (l ++ c :: w) = .ok w := by
  rw [currentWord_of_pos h (by simp), ← List.drop_drop, List.drop_left' rfl, List.drop_one,
    List.tail_cons]

/-- The completion list for a word of more than two bytes. -/
theorem onEntryChangedEvent_of_word {fs : FileSystem} {env : List Bytes} {s : Do} {text : Bytes}
    (hword : currentWord s.entry.text = .ok text) (hlen : 2 < text.length) :
    (onEntryChangedEvent fs env s).map liststore = wordRows fs env s.history s.path text := by
  have hlong : ¬ s.entry.text.length < 2 := by
    have := (currentWord_suffix hword).length_le
    omega
  simp only [onEntryChangedEvent, hlong, hword, if_false, bind, Except.bind, pure, Except.pure,
    show ¬ text.length ≤ 2 by omega, wordRows]
  by_cases hslash : text.take 1 = [slash]
  · cases hexists : fs.testExists (unescapeSpaces (pathGetDirname text)) with
    | false => simp [hslash, Except.map]
    | true =>
        cases hdir : fs.openDir (unescapeSpaces (pathGetDirname text)) with
        | none => simp [hslash, Except.map]
        | some names =>
            simp [hslash, appendCommands_eq, appendHistory_eq, appendEntries_eq, Except.map]
  by_cases hdollar : text.take 1 = [dollar]
  · simp only [if_neg hslash, if_pos hdollar]
    simp [appendCommands_eq, appendHistory_eq, appendEnv_eq, Except.map]
  · simp [hslash, hdollar, appendCommands_eq, appendHistory_eq, Except.map]

/-- The list is that of the dialog the handler ends with. -/
theorem of_map_liststore {x : Except Exn Do} {rows : List Row} (h : x.map liststore = .ok rows) :
    ∃ s', x = .ok s' ∧ s'.liststore = rows := by
  cases x with
  | error e => cases h
  | ok s' => exact ⟨s', rfl, Except.ok.inj h⟩

theorem exists_row_iff {fs : FileSystem} {env : List Bytes} {s : Do} {rows : List Row}
    (h : (onEntryChangedEvent fs env s).map liststore = .ok rows) (row : Row) :
    (∃ s', onEntryChangedEvent fs env s = .ok s' ∧ row ∈ s'.liststore) ↔ row ∈ rows := by
  obtain ⟨s', hs, rfl⟩ := of_map_liststore h
  simp [hs]

/-- For a shorter word it stays empty. -/
theorem onEntryChangedEvent_of_short {fs : FileSystem} {env : List Bytes} {s s' : Do}
    (hshort : ∀ text, currentWord s.entry.text = .ok text → text.length ≤ 2)
    (h : onEntryChangedEvent fs env s = .ok s') : s'.liststore = [] := by
  simp only [onEntryChangedEvent, bind, Except.bind, pure, Except.pure] at h
  split_ifs at h
  · cases h
    rfl
  · cases hword : currentWord s.entry.text with
    | error e => simp [hword] at h
    | ok text =>
        simp only [hword, if_pos (hshort text hword)] at h
        cases h
        rfl

end Do

end TudorDo
