import Mathlib.Data.List.Basic
import Mathlib.Data.List.Flatten
import TudorDo.Do

/-!
# The suggestions for a word

What `on_entry_changed_event` leaves in the list, for all texts: for a word that is no path, the
rows that filtering the environment, the history and the listings gives (`suggestions_exact`); for a
word typed on by a character, no row that was not there before (`typing_narrows`). An exception
leaves the handler for two kinds of text, `onEntryChangedEvent_completes_iff`.
-/

namespace TudorDo.Do

open Lib Lib.Ascii Glib

variable {fs : FileSystem} {env : List Bytes} {s : Do} {w : Bytes}

/-! ## A word that is no path -/

/-- The rows to be suggested for a word that is no path: the variables, if the word asks for one,
the commands of the history and the names listed that the word is the start of. -/
def suggestions (env : List Bytes) (history : History) (path : PathMap) (w : Bytes) : List Row :=
  (if w.head? = some dollar then
      (env.filter fun v => w.tail <+: v).map fun v => ⟨[], dollar :: v⟩
    else []) ++
  ((history.toList.filter fun h => w <+: h).map fun h => ⟨[], h⟩) ++
  path.toList.flatMap fun listing =>
    (listing.2.filter fun n => w <+: n).map fun n => ⟨listing.1, n⟩

theorem startsWith_eq (text it : Bytes) : startsWith it text = decide (text <+: it) := by
  rw [Bool.eq_iff_iff, startsWith_iff, decide_eq_true_iff]

theorem take_one_eq_iff {w : Bytes} {c : UInt8} : w.take 1 = [c] ↔ w.head? = some c := by
  cases w <;> simp

theorem envRows_eq (text : Bytes) (env : List Bytes) :
    envRows text env =
      (env.filter fun v => text.tail <+: v).map fun v => ⟨[], dollar :: v⟩ := by
  simp only [envRows, List.drop_one, List.prefix_iff_eq_take, @eq_comm _ text.tail]

/-- **The suggestions.** For a word of more than two bytes that is no path, the handler leaves the
rows to be suggested, in their order, and no others, whatever the list held before. -/
theorem suggestions_exact (hword : currentWord s.entry.text = .ok w) (hlen : 2 < w.length)
    (hslash : w.head? ≠ some slash) :
    ∃ s', onEntryChangedEvent fs env s = .ok s' ∧
      s'.liststore = suggestions env s.history s.path w := by
  apply of_map_liststore
  rw [onEntryChangedEvent_of_word hword hlen]
  unfold wordRows suggestions historyRows commandRows
  simp only [take_one_eq_iff, if_neg hslash, startsWith_eq, envRows_eq]
  split_ifs
  · rw [List.append_assoc]
  · rw [List.nil_append]

/-- `suggestions_exact` for a variable asked for behind a command. -/
theorem suggestions_exact_var :
    ∃ s', onEntryChangedEvent .oneRegularFile [bytes "PAGER", bytes "HOME", bytes "PATH"]
        (typing (bytes "echo $PA") [⟨[], bytes "ls -l"⟩]) = .ok s' ∧
      s'.liststore = [⟨[], bytes "$PAGER"⟩, ⟨[], bytes "$PATH"⟩] := by
  have h : ∃ s', onEntryChangedEvent .oneRegularFile [bytes "PAGER", bytes "HOME", bytes "PATH"]
        (typing (bytes "echo $PA") [⟨[], bytes "ls -l"⟩]) = .ok s' ∧
      s'.liststore = suggestions [bytes "PAGER", bytes "HOME", bytes "PATH"] ∅ ∅ (bytes "$PA") :=
    suggestions_exact (by decide) (by decide) (by decide)
  obtain ⟨s', hs', hlist⟩ := h
  exact ⟨s', hs', hlist.trans (by decide +kernel)⟩

/-! ## Typing on -/

section Narrow

variable {c : UInt8}

/-- A character that is no space leaves the last space where it is. -/
theorem findLastSpacePos_append (hc : c ≠ space) (t : Bytes) :
    findLastSpacePos (t ++ [c]) = findLastSpacePos t := by
  have hr : ∀ {r : Bytes}, space ∉ r → space ∉ r ++ [c] := by
    intro r hr hmem
    rcases List.mem_append.mp hmem with h | h
    · exact hr h
    · exact hc (List.mem_singleton.mp h).symm
  rcases last_space_cases t with ht | ⟨r, rfl, hr'⟩ | ⟨l, b, r, rfl, hr'⟩
  · rw [findLastSpacePos_of_not_mem ht, findLastSpacePos_of_not_mem (hr ht)]
  · rw [List.cons_append, findLastSpacePos_start hr', findLastSpacePos_start (hr hr')]
  · simp only [List.append_assoc, List.cons_append]
    by_cases hb : b = backslash
    · subst hb
      rw [findLastSpacePos_escaped hr', findLastSpacePos_escaped (hr hr')]
    · rw [findLastSpacePos_plain hb hr', findLastSpacePos_plain hb (hr hr')]

theorem substrInt_append {t w : Bytes} {pos : Int} (h : substrInt t pos = .ok w) (x : Bytes) :
    substrInt (t ++ x) pos = .ok (w ++ x) := by
  unfold substrInt at h ⊢
  cases hpos : fromInt pos with
  | none => simp [hpos] at h
  | some i =>
      simp only [hpos, Option.bind_some, Str.substrFrom] at h ⊢
      split_ifs at h with hi
      · obtain rfl : t.drop i = w := Except.ok.inj h
        rw [if_pos (by simp only [List.length_append]; omega), List.drop_append_of_le_length hi]
        rfl
      · cases h

theorem currentWord_append (hc : c ≠ space) {t : Bytes} (h : currentWord t = .ok w) :
    currentWord (t ++ [c]) = .ok (w ++ [c]) := by
  unfold currentWord at h ⊢
  rw [findLastSpacePos_append hc]
  cases hpos : findLastSpacePos t with
  | error e =>
      rw [hpos] at h
      cases h
  | ok pos =>
      simp only [hpos, bind, Except.bind] at h ⊢
      split_ifs at h ⊢
      · exact substrInt_append h [c]
      · rw [Except.ok.inj h]

theorem prefix_of_append {x t : Bytes} (h : w ++ x <+: t) : w <+: t :=
  (List.prefix_append w x).trans h

theorem historyRows_append (history : History) (w x : Bytes) :
    (historyRows history (w ++ x)).Sublist (historyRows history w) := by
  refine (List.monotone_filter_right _ fun it h => ?_).map _
  exact startsWith_iff.mpr (prefix_of_append (startsWith_iff.mp h))

theorem commandRows_append (path : PathMap) (w x : Bytes) :
    (commandRows path (w ++ x)).Sublist (commandRows path w) := by
  apply List.Sublist.flatMap_right _
  intro listing _
  refine (List.monotone_filter_right _ fun it h => ?_).map _
  exact startsWith_iff.mpr (prefix_of_append (startsWith_iff.mp h))

theorem envRows_append (hw : w ≠ []) (x : Bytes) (env : List Bytes) :
    (envRows (w ++ x) env).Sublist (envRows w env) := by
  rw [envRows_eq, envRows_eq, List.tail_append_of_ne_nil hw]
  refine (List.monotone_filter_right _ fun v h => ?_).map _
  exact decide_eq_true (prefix_of_append (of_decide_eq_true h))

/-- A path typed on within its last component stays in its directory. -/
theorem pathGetDirname_append_singleton (hslash : slash ∈ w) (hc : c ≠ slash) :
    pathGetDirname (w ++ [c]) = pathGetDirname w := by
  obtain ⟨l, r, rfl, hr⟩ := Str.eq_append_cons_of_mem_last hslash
  have hr' : slash ∉ r ++ [c] := by simpa [hr] using hc.symm
  rw [List.append_assoc, List.cons_append, pathGetDirname_append l hr, pathGetDirname_append l hr']

theorem entryRows_append (hslash : slash ∈ w) (hc : c ≠ slash) (dirName : Bytes)
    (names : List Bytes) :
    (entryRows (w ++ [c]) dirName names).Sublist (entryRows w dirName names) := by
  obtain ⟨l, r, rfl, hr⟩ := Str.eq_append_cons_of_mem_last hslash
  have hr' : slash ∉ r ++ [c] := by simpa [hr] using hc.symm
  refine (List.monotone_filter_right _ fun name h => ?_).map _
  rw [List.append_assoc, List.cons_append, matchesEntry_iff hr'] at h
  exact (matchesEntry_iff hr).mpr (prefix_of_append h)

/-- The rows for a word typed on are some of the rows for the word, in their order. -/
theorem wordRows_append (hw : w ≠ []) (hc : c ≠ slash) {history : History} {path : PathMap}
    {rows : List Row} (h : wordRows fs env history path w = .ok rows) :
    ∃ rows', wordRows fs env history path (w ++ [c]) = .ok rows' ∧ rows'.Sublist rows := by
  have htake : (w ++ [c]).take 1 = w.take 1 :=
    List.take_append_of_le_length (List.length_pos_iff.mpr hw)
  have hknown := (historyRows_append history w [c]).append (commandRows_append path w [c])
  unfold wordRows at h ⊢
  rw [htake]
  by_cases hslash : w.take 1 = [slash]
  · have hmem : slash ∈ w := List.mem_of_mem_take (hslash ▸ List.mem_singleton_self slash)
    rw [if_pos hslash] at h ⊢
    rw [pathGetDirname_append_singleton hmem hc]
    by_cases hexists : fs.testExists (unescapeSpaces (pathGetDirname w)) = true
    · simp only [if_pos hexists] at h ⊢
      cases hdir : fs.openDir (unescapeSpaces (pathGetDirname w)) with
      | none => simp [hdir] at h
      | some names =>
          simp only [hdir, Except.ok.injEq] at h ⊢
          subst h
          exact ⟨_, rfl, (entryRows_append hmem hc _ names).append hknown⟩
    · simp only [if_neg hexists, Except.ok.injEq] at h ⊢
      subst h
      exact ⟨[], rfl, List.Sublist.refl _⟩
  rw [if_neg hslash] at h ⊢
  by_cases hdollar : w.take 1 = [dollar]
  · rw [if_pos hdollar] at h ⊢
    cases h
    exact ⟨_, rfl, (envRows_append hw [c] env).append hknown⟩
  · rw [if_neg hdollar] at h ⊢
    cases h
    exact ⟨_, rfl, hknown⟩

/-- **Typing on.** With a character typed behind a text whose word has more than two bytes, neither
a space nor a slash, the handler lists some of the rows that it listed before, in the same order. -/
theorem typing_narrows (hword : currentWord s.entry.text = .ok w) (hlen : 2 < w.length) {s' : Do}
    (hs' : onEntryChangedEvent fs env s = .ok s') (hspace : c ≠ space) (hslash : c ≠ slash)
    {t : Do} (htext : t.entry.text = s.entry.text ++ [c]) (hhistory : t.history = s.history)
    (hpath : t.path = s.path) :
    ∃ t', onEntryChangedEvent fs env t = .ok t' ∧ t'.liststore.Sublist s'.liststore := by
  have hw : w ≠ [] := List.length_pos_iff.mp (by omega)
  have hrows : wordRows fs env s.history s.path w = .ok s'.liststore := by
    rw [← onEntryChangedEvent_of_word hword hlen, hs']
    rfl
  obtain ⟨rows', hrows', hsub⟩ := wordRows_append hw hslash hrows
  have hword' : currentWord t.entry.text = .ok (w ++ [c]) := by
    rw [htext, currentWord_append hspace hword]
  have hlist : (onEntryChangedEvent fs env t).map liststore =
      wordRows fs env t.history t.path (w ++ [c]) :=
    onEntryChangedEvent_of_word hword' (by rw [List.length_append]; omega)
  rw [hhistory, hpath, hrows'] at hlist
  obtain ⟨t', ht, rfl⟩ := of_map_liststore hlist
  exact ⟨t', ht, hsub⟩

end Narrow

/-- `typing_narrows` for a variable: with the `T` one of the two suggestions is left. -/
theorem typing_narrows_var :
    ∃ s' t', onEntryChangedEvent .oneRegularFile [bytes "PAGER", bytes "PATH"]
        (typing (bytes "echo $PA") []) = .ok s' ∧
      onEntryChangedEvent .oneRegularFile [bytes "PAGER", bytes "PATH"]
        (typing (bytes "echo $PAT") []) = .ok t' ∧
      s'.liststore = [⟨[], bytes "$PAGER"⟩, ⟨[], bytes "$PATH"⟩] ∧
      t'.liststore.Sublist s'.liststore := by
  have hrows : (onEntryChangedEvent .oneRegularFile [bytes "PAGER", bytes "PATH"]
      (typing (bytes "echo $PA") [])).map liststore =
      .ok [⟨[], bytes "$PAGER"⟩, ⟨[], bytes "$PATH"⟩] := by decide +kernel
  obtain ⟨s', hs, hlist⟩ := of_map_liststore hrows
  obtain ⟨t', ht, hsub⟩ := typing_narrows (w := bytes "$PA") (c := 0x54)
    (t := typing (bytes "echo $PAT") []) (by decide) (by decide) hs (by decide) (by decide)
    (by decide) rfl rfl
  exact ⟨s', t', hs, ht, hlist, hsub⟩

/-! ## Texts the handler throws for -/

/-- What stands behind the space a text is cut at. -/
def wordBehind (text : Bytes) : Bytes := text.drop (toInt (cutSpace text) + 1).toNat

/-- A text can be cut: its last space is not its first character, and the position of the space it
is cut at, `npos` if there is none, is not below -1 as an `int`. -/
structure CanBeCut (text : Bytes) : Prop where
  start : ∀ r, text = space :: r → space ∈ r
  pos : -1 ≤ toInt (cutSpace text)

/-- A path in a directory that exists and cannot be opened as one. -/
structure InUnreadableDir (fs : FileSystem) (w : Bytes) : Prop where
  path : w.head? = some slash
  found : fs.testExists (unescapeSpaces (pathGetDirname w)) = true
  unreadable : fs.openDir (unescapeSpaces (pathGetDirname w)) = none

theorem findLastOf_eq_zero {text : Bytes} :
    Str.findLastOf space text = some 0 ↔ ∃ r, text = space :: r ∧ space ∉ r := by
  rw [Str.findLastOf_eq_some]
  constructor
  · rintro ⟨l, r, rfl, hr, hl⟩
    rw [List.length_eq_zero_iff] at hl
    subst hl
    exact ⟨r, rfl, hr⟩
  · rintro ⟨r, rfl, hr⟩
    exact ⟨[], r, rfl, hr, rfl⟩

theorem canBeCut_iff {text : Bytes} :
    CanBeCut text ↔ Str.findLastOf space text ≠ some 0 ∧ -1 ≤ toInt (cutSpace text) := by
  rw [Ne, findLastOf_eq_zero]
  constructor
  · intro h
    exact ⟨fun ⟨r, htext, hr⟩ => hr (h.start r htext), h.pos⟩
  · rintro ⟨hstart, hpos⟩
    exact ⟨fun r htext => by_contra fun hr => hstart ⟨r, htext, hr⟩, hpos⟩

/-- The space a text is cut at is inside the text. -/
theorem cutSpace_lt {text : Bytes} {k : Nat} (h : cutSpace text = some k) : k < text.length := by
  have hlt : ∀ {s : Bytes} {i : Nat}, Str.findLastOf space s = some i → i < s.length := by
    intro s i hi
    obtain ⟨l, r, rfl, -, rfl⟩ := Str.findLastOf_eq_some.mp hi
    simp
  unfold cutSpace at h
  split at h
  · split_ifs at h
    · have := hlt h
      rw [List.length_take] at this
      omega
    · rw [← Option.some.inj h]
      exact hlt ‹_›
  · exact hlt h

theorem toInt_cutSpace_lt (text : Bytes) : toInt (cutSpace text) < text.length := by
  cases h : cutSpace text with
  | none =>
      show (-1 : Int) < text.length
      omega
  | some k =>
      have := cutSpace_lt h
      rw [toInt_some]
      split_ifs <;> omega

theorem currentWord_of_canBeCut {text : Bytes} (h : CanBeCut text) :
    currentWord text = .ok (wordBehind text) := by
  obtain ⟨hstart, hpos⟩ := canBeCut_iff.mp h
  have hlt := toInt_cutSpace_lt text
  unfold currentWord wordBehind
  rw [findLastSpacePos_eq, if_neg hstart]
  generalize toInt (cutSpace text) = pos at hpos hlt ⊢
  show (if pos ≠ -1 then substrInt text (pos + 1) else .ok text) = _
  split_ifs with hnone
  · unfold substrInt
    rw [fromInt, if_pos (by omega), Option.bind_some, Str.substrFrom, if_pos (by omega),
      checked_some]
  · rw [not_not.mp hnone]
    rfl

theorem currentWord_of_not_canBeCut {text : Bytes} (h : ¬ CanBeCut text) :
    currentWord text = .error .outOfRange := by
  rw [canBeCut_iff, not_and_or, not_not, Int.not_le] at h
  unfold currentWord
  rw [findLastSpacePos_eq]
  by_cases hstart : Str.findLastOf space text = some 0
  · rw [if_pos hstart]
    rfl
  · have hpos := h.resolve_left hstart
    rw [if_neg hstart]
    generalize toInt (cutSpace text) = pos at hpos ⊢
    show (if pos ≠ -1 then substrInt text (pos + 1) else .ok text) = _
    rw [if_pos (by omega), substrInt, fromInt, if_neg (by omega)]
    rfl

/-- The rows for a word are found unless it is a path in a directory that cannot be read. -/
theorem wordRows_completes_iff {history : History} {path : PathMap} :
    (∃ rows, wordRows fs env history path w = .ok rows) ↔ ¬ InUnreadableDir fs w := by
  unfold wordRows
  simp only [take_one_eq_iff]
  by_cases hslash : w.head? = some slash
  · rw [if_pos hslash]
    by_cases hexists : fs.testExists (unescapeSpaces (pathGetDirname w)) = true
    · rw [if_pos hexists]
      cases hdir : fs.openDir (unescapeSpaces (pathGetDirname w)) with
      | none =>
          refine iff_of_false ?_ fun h => h ⟨hslash, hexists, hdir⟩
          rintro ⟨rows, h⟩
          cases h
      | some names =>
          refine iff_of_true ⟨_, rfl⟩ fun h => ?_
          have := h.unreadable
          rw [hdir] at this
          cases this
    · rw [if_neg hexists]
      exact iff_of_true ⟨_, rfl⟩ fun h => hexists h.found
  · rw [if_neg hslash]
    refine iff_of_true ?_ fun h => hslash h.path
    split_ifs
    · exact ⟨_, rfl⟩
    · exact ⟨_, rfl⟩

/-- **No exception.** The handler returns for a text of less than two bytes and for one that can be
cut, unless what is behind the cut is a path of more than two bytes in a directory that exists and
cannot be opened. It throws for every other text. -/
theorem onEntryChangedEvent_completes_iff :
    (∃ s', onEntryChangedEvent fs env s = .ok s') ↔
      s.entry.text.length < 2 ∨
        CanBeCut s.entry.text ∧
          (2 < (wordBehind s.entry.text).length → ¬ InUnreadableDir fs (wordBehind s.entry.text)) := by
  by_cases hshort : s.entry.text.length < 2
  · refine iff_of_true ⟨{ s with liststore := [] }, ?_⟩ (.inl hshort)
    simp only [onEntryChangedEvent, if_pos hshort]
    rfl
  rw [or_iff_right hshort]
  by_cases hcut : CanBeCut s.entry.text
  · have hword := currentWord_of_canBeCut hcut
    rw [and_iff_right hcut]
    by_cases hlen : 2 < (wordBehind s.entry.text).length
    · have hrows : (onEntryChangedEvent fs env s).map liststore =
          wordRows fs env s.history s.path (wordBehind s.entry.text) :=
        onEntryChangedEvent_of_word hword hlen
      have hcompletes : (∃ rows, wordRows fs env s.history s.path (wordBehind s.entry.text) =
          .ok rows) ↔ ¬ InUnreadableDir fs (wordBehind s.entry.text) := wordRows_completes_iff
      rw [forall_prop_of_true hlen, ← hcompletes, ← hrows]
      cases onEntryChangedEvent fs env s with
      | error e => simp [Except.map]
      | ok s' => exact iff_of_true ⟨s', rfl⟩ ⟨_, rfl⟩
    · refine iff_of_true ⟨{ s with liststore := [] }, ?_⟩ fun h => absurd h hlen
      simp only [onEntryChangedEvent, if_neg hshort, hword, bind, Except.bind, pure, Except.pure,
        if_pos (Nat.le_of_not_lt hlen)]
  · refine iff_of_false ?_ fun h => hcut h.1
    rintro ⟨s', hs'⟩
    simp [onEntryChangedEvent, hshort, currentWord_of_not_canBeCut hcut, bind, Except.bind] at hs'

theorem eq_error_of_map {x : Except Exn Do} {e : Exn} (h : x.map liststore = .error e) :
    x = .error e := by
  cases x with
  | error e' => exact congrArg Except.error (Except.error.inj h)
  | ok s' => cases h

/-- A text whose only space is its first character, and a file typed as if it were a directory: the
handler throws. -/
theorem typing_throws :
    onEntryChangedEvent .oneRegularFile [] (typing (bytes " ls") []) = .error .outOfRange ∧
      onEntryChangedEvent .oneRegularFile [] (typing (bytes "/f/x") []) = .error .fileError := by
  constructor
  · exact eq_error_of_map (by decide)
  · exact eq_error_of_map (by decide +kernel)

end TudorDo.Do
