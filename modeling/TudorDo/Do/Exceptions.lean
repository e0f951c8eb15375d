import TudorDo.Do.Session
import TudorDo.Do.Suggestions

/-!
# Where a handler throws

No handler catches an exception; what glibmm makes of it (`step`) is not looked at here. Of what the
dialog does to a text of ASCII characters only `on_entry_changed_event` throws, and it does so for what
the text is: `CanBeListed` says for which texts it returns. The Tab key and the popup put other texts
in the entry (`Puts`), and by themselves they never throw: there are rows only for a text that could be
cut. `session_goes_on_iff` is the exact condition for whole sessions.
-/

namespace TudorDo.Do

open Lib Lib.Ascii Glib

variable {w : World} {s s' t : Do} {input : Input}

/-! ## The texts that can be listed -/

/-- The text is short, or can be cut, and what is behind the cut is short or no path in a directory
that cannot be opened. -/
def CanBeListed (fs : FileSystem) (text : Bytes) : Prop :=
  text.length < 2 ∨ CanBeCut text ∧
    (2 < (wordBehind text).length → ¬ InUnreadableDir fs (wordBehind text))

theorem canBeListed_nil (fs : FileSystem) : CanBeListed fs [] := .inl (by decide)

theorem listed_iff {fs : FileSystem} {env : List Bytes} {history : History} {path : PathMap}
    {text : Bytes} :
    (∃ rows, listed fs env history path text = .ok rows) ↔ CanBeListed fs text := by
  unfold CanBeListed
  by_cases hshort : text.length < 2
  · exact iff_of_true ⟨[], if_pos hshort⟩ (.inl hshort)
  rw [or_iff_right hshort]
  by_cases hcut : CanBeCut text
  · have hlisted : listed fs env history path text =
        if (wordBehind text).length ≤ 2 then .ok []
        else wordRows fs env history path (wordBehind text) := by
      rw [listed, if_neg hshort, currentWord_of_canBeCut hcut]
      rfl
    rw [hlisted, and_iff_right hcut]
    by_cases hlen : (wordBehind text).length ≤ 2
    · rw [if_pos hlen]
      exact iff_of_true ⟨[], rfl⟩ fun h => absurd h (Nat.not_lt.mpr hlen)
    · rw [if_neg hlen, wordRows_completes_iff, forall_prop_of_true (Nat.not_le.mp hlen)]
  · rw [listed, if_neg hshort, currentWord_of_not_canBeCut hcut]
    apply iff_of_false
    · rintro ⟨rows, h⟩
      cases h
    · intro h
      exact hcut h.1

/-- The handler returns where it has rows to list. -/
theorem onEntryChangedEvent_of_listed {fs : FileSystem} {env : List Bytes} {rows : List Row}
    (h : listed fs env s.history s.path s.entry.text = .ok rows) :
    ∃ t, onEntryChangedEvent fs env s = .ok t := by
  unfold listed at h
  split_ifs at h with hshort
  · exact ⟨_, if_pos hshort⟩
  cases hword : currentWord s.entry.text with
  | error e =>
      rw [hword] at h
      cases h
  | ok word =>
      rw [hword] at h
      change (if word.length ≤ 2 then _ else _) = _ at h
      split_ifs at h with hlen
      · refine ⟨{ s with liststore := [] }, ?_⟩
        simp only [onEntryChangedEvent, if_neg hshort, hword, bind, Except.bind, pure, Except.pure,
          if_pos hlen]
      · rw [← onEntryChangedEvent_of_word hword (Nat.not_le.mp hlen)] at h
        obtain ⟨t, ht, -⟩ := of_map_liststore h
        exact ⟨t, ht⟩

/-- What GTK adds to a handler throws for the new text, if at all. -/
theorem settle_iff :
    (∃ t, settle w s s' = .ok t) ↔
      s'.entry.text = s.entry.text ∨ CanBeListed w.fs s'.entry.text := by
  constructor
  · rintro ⟨t, ht⟩
    rcases settle_ok ht with ⟨hsame, -⟩ | ⟨-, rows, hlisted, -⟩
    · exact .inl hsame
    · exact .inr (listed_iff.mp ⟨rows, hlisted⟩)
  · intro h
    unfold settle
    split_ifs with hsame
    · exact ⟨s', rfl⟩
    · obtain ⟨rows, hlisted⟩ := listed_iff.mpr (h.resolve_left hsame)
      obtain ⟨t, ht⟩ := onEntryChangedEvent_of_listed hlisted
      rw [ht]
      exact ⟨_, rfl⟩

/-! ## The texts an input puts in the entry -/

/-- What the slash key makes of a tilde at the end, before GTK inserts the slash. -/
def expandTilde (home : Bytes) (e : Entry) : Entry :=
  let len := e.text.length - 1
  if len > 0 ∧ e.text.drop len = [tilde] then (e.setText (e.text.take len ++ home)).setPositionEnd
  else e

/-- Handling the input puts the second text in the place of the first, where the text is ASCII. -/
inductive Puts (w : World) (s : Do) : Input → Bytes → Bytes → Prop
  | edit (entry : Entry) : Puts w s (.edit entry) s.entry.text entry.text
  | expand : Puts w s .slash s.entry.text (expandTilde w.home s.entry).text
  | slash : Puts w s .slash (expandTilde w.home s.entry).text
      ((expandTilde w.home s.entry).insertText [Ascii.slash]).text
  | home (htilde : AtTilde s.entry) :
    Puts w s .tab s.entry.text (s.entry.text.dropLast ++ (w.home ++ [Ascii.slash]))
  | row {front word : Bytes} {row : Row} {rows : List Row} (htilde : ¬ AtTilde s.entry)
    (hrows : s.liststore = row :: rows) (hsel : s.entry.bound = s.entry.position)
    (hword : currentWord s.entry.text = .ok word) (htext : s.entry.text = front ++ word)
    (hfront : front ≠ []) : Puts w s .tab s.entry.text (front ++ row.file)
  | select {front word : Bytes} {row : Row} (hword : currentWord s.entry.text = .ok word)
    (htext : s.entry.text = front ++ word) :
    Puts w s (.select row) s.entry.text (front ++ row.file)
  | escape : Puts w s .escape s.entry.text []
  | enter (start : List Bytes → Bool) : Puts w s (.enter start) s.entry.text []

/-- What the input puts in the entry can be listed, where it is another text. -/
def PutsListed (w : World) (s : Do) (input : Input) : Prop :=
  ∀ before after, Puts w s input before after → after = before ∨ CanBeListed w.fs after

theorem onEntryKeyPressedEvent_slash (home : Bytes) (s : Do) :
    onEntryKeyPressedEvent home .slash s =
      .ok ({ s with entry := expandTilde home s.entry }, false) := by
  simp only [onEntryKeyPressedEvent, expandTilde]
  split_ifs <;> rfl

/-- The home directory and a slash in the place of the tilde. -/
theorem replace_tilde {text home : Bytes} (hascii : IsAscii text) (hne : text ≠ []) :
    Ustring.replace text (Ustring.length text - 1) (home ++ [slash]).length (home ++ [slash]) =
      .ok (text.dropLast ++ (home ++ [slash])) := by
  have hpos : 0 < text.length := List.length_pos_iff.mpr hne
  have hlen : (Ustring.length text : Int) - 1 = (text.length - 1 : Nat) := by
    rw [Ustring.length_of_ascii hascii]
    omega
  have hend : text.length ≤ text.length - 1 + (home ++ [slash]).length := by
    rw [List.length_append, List.length_singleton]
    omega
  rw [Ustring.replace, hlen, fromInt_natCast, Option.bind_some, Ustring.length_of_ascii hascii,
    if_pos (Nat.sub_le _ _), checked_some, Utf8.chars_of_ascii hascii, Str.replaceAt,
    List.drop_of_length_le (by simpa using hend), List.append_nil, List.flatten_append,
    List.flatten_singleton, ← List.map_take, ← List.flatMap_def, List.flatMap_singleton',
    List.dropLast_eq_take]

/-- Where there are rows, the text can be cut, and a word is behind the cut. -/
theorem exists_word_of_fresh {seen : World → PathMap → Prop} (h : Fresh seen s)
    (hrows : s.liststore ≠ []) : ∃ word pos, currentWord s.entry.text = .ok word ∧
      2 < word.length ∧ findLastSpacePos s.entry.text = .ok pos := by
  obtain ⟨w₀, path, -, hlisted⟩ := h
  obtain ⟨row, rows, hcons⟩ := List.exists_cons_of_ne_nil hrows
  rw [hcons] at hlisted
  obtain ⟨word, hword, hlen, -⟩ := of_listed_cons hlisted
  obtain ⟨pos, hpos, -⟩ := bind_eq_ok.mp hword
  exact ⟨word, pos, hword, hlen, hpos⟩

theorem eq_nil_of_uncut {text word front : Bytes} (hpos : findLastSpacePos text = .ok (-1))
    (hword : currentWord text = .ok word) (htext : text = front ++ word) : front = [] := by
  rw [currentWord_of_none hpos, Except.ok.injEq, htext] at hword
  exact List.append_left_eq_self.mp hword

/-! ## Input by input -/

section Perform

variable {seen : World → PathMap → Prop}

theorem perform_edit_iff (entry : Entry) :
    (∃ t, perform w s (.edit entry) = .ok t) ↔ PutsListed w s (.edit entry) := by
  refine settle_iff.trans ⟨fun h before after hputs => ?_, fun h => h _ _ (.edit entry)⟩
  cases hputs
  exact h

theorem perform_slash_iff : (∃ t, perform w s .slash = .ok t) ↔ PutsListed w s .slash := by
  constructor
  · rintro ⟨t, ht⟩ before after hputs
    obtain ⟨⟨s₁, handled⟩, hkey, hrest⟩ := bind_eq_ok.mp ht
    rw [onEntryKeyPressedEvent_slash] at hkey
    cases hkey
    obtain ⟨s₂, hsettle, hinsert⟩ := bind_eq_ok.mp hrest
    cases hputs with
    | expand => exact settle_iff.mp ⟨s₂, hsettle⟩
    | slash =>
        have hentry := settle_entry hsettle
        have := settle_iff.mp ⟨t, hinsert⟩
        rw [hentry] at this
        exact this
  · intro h
    obtain ⟨s₂, hsettle⟩ : ∃ s₂, settle w s { s with entry := expandTilde w.home s.entry } = .ok s₂ :=
      settle_iff.mpr (h _ _ .expand)
    have hentry := settle_entry hsettle
    obtain ⟨t, hinsert⟩ : ∃ t, settle w s₂ { s₂ with entry := s₂.entry.insertText [slash] } = .ok t := by
      apply settle_iff.mpr
      rw [hentry]
      exact h _ _ .slash
    refine ⟨t, bind_eq_ok.mpr ⟨_, onEntryKeyPressedEvent_slash w.home s, ?_⟩⟩
    exact bind_eq_ok.mpr ⟨s₂, hsettle, hinsert⟩

/-- Where the handler returns, GTK alone can throw. -/
theorem perform_tab_iff_of_handler {handled : Bool}
    (hkey : onEntryKeyPressedEvent w.home .tab s = .ok (s', handled)) :
    (∃ t, perform w s .tab = .ok t) ↔
      s'.entry.text = s.entry.text ∨ CanBeListed w.fs s'.entry.text := by
  rw [← settle_iff]
  constructor
  · rintro ⟨t, ht⟩
    obtain ⟨⟨s₁, handled₁⟩, hkey₁, hsettle⟩ := bind_eq_ok.mp ht
    rw [hkey] at hkey₁
    cases hkey₁
    exact ⟨t, hsettle⟩
  · rintro ⟨t, ht⟩
    exact ⟨t, bind_eq_ok.mpr ⟨_, hkey, ht⟩⟩

theorem perform_tab_iff (h : Fresh seen s) (hascii : IsAscii s.entry.text) :
    (∃ t, perform w s .tab = .ok t) ↔ PutsListed w s .tab := by
  by_cases htilde : AtTilde s.entry
  · have hne : s.entry.text ≠ [] := by
      intro hempty
      apply htilde.1
      simp [hempty, Ustring.length]
    have hkey : onEntryKeyPressedEvent w.home .tab s = .ok ({ s with
        entry := (s.entry.setText (s.entry.text.dropLast ++ (w.home ++ [slash]))).setPositionEnd },
        true) := by
      simp only [onEntryKeyPressedEvent, if_pos htilde, replace_tilde hascii hne]
      rfl
    rw [perform_tab_iff_of_handler hkey]
    constructor
    · intro hlisted before after hputs
      cases hputs with
      | home => exact hlisted
      | row htilde' => exact absurd htilde htilde'
    · intro hputs
      exact hputs _ _ (.home htilde)
  · cases hrows : s.liststore with
    | nil =>
        have hkey : ∃ s' handled, onEntryKeyPressedEvent w.home .tab s = .ok (s', handled) ∧
            s'.entry.text = s.entry.text := by
          simp only [onEntryKeyPressedEvent, if_neg htilde, hrows]
          split_ifs
          · exact ⟨_, _, rfl, rfl⟩
          · exact ⟨_, _, rfl, rfl⟩
        obtain ⟨s', handled, hkey, hsame⟩ := hkey
        rw [perform_tab_iff_of_handler hkey]
        refine iff_of_true (.inl hsame) fun before after hputs => ?_
        cases hputs with
        | home htilde' => exact absurd htilde' htilde
        | row _ hrows' => simp [hrows] at hrows'
    | cons row rows =>
        obtain ⟨word, pos, hword, hlen, hpos⟩ := exists_word_of_fresh h (by simp [hrows])
        have hlong : ¬ (Ustring.length s.entry.text = 0 ∨ Ustring.length s.entry.text ≤ 2) := by
          have := (currentWord_suffix hword).length_le
          rw [Ustring.length_of_ascii hascii]
          omega
        by_cases hreplaces : pos ≠ -1 ∧ s.entry.bound = s.entry.position
        · obtain ⟨front, hfront, htext, hreplace⟩ := replaceWord_eq hascii hpos hreplaces.1 hword
          have hkey : onEntryKeyPressedEvent w.home .tab s = .ok ({ s with
              entry := (s.entry.setText (front ++ row.file)).selectToEnd s.entry.position },
              true) := by
            simp only [onEntryKeyPressedEvent, if_neg htilde, if_neg hlong, hrows, hpos, bind,
              Except.bind, if_pos hreplaces, hreplace]
            rfl
          rw [perform_tab_iff_of_handler hkey]
          constructor
          · intro hlisted before after hputs
            cases hputs with
            | home htilde' => exact absurd htilde' htilde
            | @row front' word' row' rows' _ hrows' _ hword' htext' =>
                rw [hrows] at hrows'
                cases hrows'
                obtain rfl : word = word' := Except.ok.inj (hword.symm.trans hword')
                obtain rfl : front = front' := List.append_cancel_right (htext.symm.trans htext')
                exact hlisted
          · intro hputs
            exact hputs _ _ (.row htilde hrows hreplaces.2 hword htext hfront)
        · have hkey : onEntryKeyPressedEvent w.home .tab s =
              .ok ({ s with entry := s.entry.setPositionEnd }, true) := by
            simp only [onEntryKeyPressedEvent, if_neg htilde, if_neg hlong, hrows, hpos, bind,
              Except.bind, if_neg hreplaces]
            rfl
          rw [perform_tab_iff_of_handler hkey]
          refine iff_of_true (.inl rfl) fun before after hputs => ?_
          cases hputs with
          | home htilde' => exact absurd htilde' htilde
          | row _ _ hsel hword' htext' hfront =>
              obtain rfl : pos = -1 := by_contra fun hne => hreplaces ⟨hne, hsel⟩
              exact absurd (eq_nil_of_uncut hpos hword' htext') hfront

theorem perform_select_iff (h : Fresh seen s) (hascii : IsAscii s.entry.text) {row : Row}
    (hrow : row ∈ s.liststore) :
    (∃ t, perform w s (.select row) = .ok t) ↔ PutsListed w s (.select row) := by
  obtain ⟨word, pos, hword, -, hpos⟩ := exists_word_of_fresh h (List.ne_nil_of_mem hrow)
  have hputs : ∀ front, s.entry.text = front ++ word → (PutsListed w s (.select row) ↔
      front ++ row.file = s.entry.text ∨ CanBeListed w.fs (front ++ row.file)) := by
    intro front htext
    refine ⟨fun h => h _ _ (.select hword htext), fun h before after hputs => ?_⟩
    cases hputs with
    | @select front' word' _ hword' htext' =>
        obtain rfl : word = word' := Except.ok.inj (hword.symm.trans hword')
        obtain rfl : front = front' := List.append_cancel_right (htext.symm.trans htext')
        exact h
  by_cases hne : pos = -1
  · subst hne
    have htext : s.entry.text = [] ++ word := by
      rw [currentWord_of_none hpos] at hword
      exact Except.ok.inj hword
    have hperform : perform w s (.select row) =
        settle w s { s with entry := (s.entry.setText row.file).setPositionEnd } := by
      have hsettle : settle w s s = .ok s := if_pos rfl
      simp only [perform, onCompletionMatchSelected, hpos, bind, Except.bind, pure, Except.pure,
        ne_eq, not_true, if_false, hsettle]
      rfl
    rw [hperform, settle_iff, hputs [] htext]
    rfl
  · obtain ⟨front, -, htext, hreplace⟩ := replaceWord_eq hascii hpos hne hword
    have hperform : perform w s (.select row) =
        settle w s { s with entry := (s.entry.setText (front ++ row.file)).setPositionEnd } := by
      simp only [perform, onCompletionMatchSelected, hpos, bind, Except.bind, pure, Except.pure,
        ne_eq, hne, not_false_eq_true, if_true, hreplace]
      cases settle w s { s with entry := (s.entry.setText (front ++ row.file)).setPositionEnd } <;> rfl
    rw [hperform, settle_iff, hputs front htext]
    rfl

/-- In an input that is possible a handler throws exactly if a text is put in the entry that cannot be
listed. -/
theorem perform_iff (h : Fresh seen s) (hascii : IsAscii s.entry.text)
    (hpossible : Possible s input) :
    (∃ t, perform w s input = .ok t) ↔ PutsListed w s input := by
  cases input with
  | edit entry => exact perform_edit_iff entry
  | slash => exact perform_slash_iff
  | tab => exact perform_tab_iff h hascii
  | select row => exact perform_select_iff h hascii hpossible.2
  | escape =>
      refine iff_of_true (settle_iff.mpr (.inr (canBeListed_nil w.fs))) fun before after hputs => ?_
      cases hputs
      exact .inr (canBeListed_nil w.fs)
  | enter start =>
      have htext : (onEntryActivate w.fs start s).1.entry.text = [] := by
        rw [onEntryActivate_eq]
        rfl
      refine iff_of_true (settle_iff.mpr (.inr (htext ▸ canBeListed_nil w.fs)))
        fun before after hputs => ?_
      cases hputs
      exact .inr (canBeListed_nil w.fs)
  | focusOut | delete | present | listings => exact iff_of_true ⟨_, rfl⟩ fun _ _ hputs => by cases hputs

theorem step_iff (h : Fresh seen s) (hascii : IsAscii s.entry.text) :
    (∃ t, step s (w, input) = some t) ↔ Possible s input ∧ PutsListed w s input := by
  by_cases hpossible : Possible s input
  · rw [and_iff_right hpossible, ← perform_iff h hascii hpossible, step, if_pos hpossible]
    cases perform w s input with
    | error e =>
        apply iff_of_false
        · rintro ⟨t, ht⟩
          cases ht
        · rintro ⟨t, ht⟩
          cases ht
    | ok t => exact iff_of_true ⟨t, rfl⟩ ⟨t, rfl⟩
  · apply iff_of_false
    · rintro ⟨t, ht⟩
      exact hpossible (step_eq_some ht).1
    · intro h
      exact hpossible h.1

end Perform

/-! ## Whole sessions -/

/-- **No other exception.** In a session in ASCII the inputs are possible where they come and no handler
throws, if and only if they are possible there and put no text in the entry that cannot be listed:
nothing else throws, the Tab key, the popup and Enter included. -/
theorem session_goes_on_iff {path : PathMap} {is : List (World × Input)}
    (hascii : EachStep step (fun s _ => IsAscii s.entry.text) (start path) is) :
    (∃ t, run step (start path) is = some t) ↔
      EachStep step (fun s i => Possible s i.2 ∧ PutsListed i.1 s i.2) (start path) is := by
  rw [exists_run_iff]
  constructor
  · intro h pre i hpre s hs
    exact (step_iff (fresh_of_run hs) (hascii pre i hpre s hs)).mp (h pre i hpre s hs)
  · intro h pre i hpre s hs
    exact (step_iff (fresh_of_run hs) (hascii pre i hpre s hs)).mpr (h pre i hpre s hs)

/-- `session_goes_on_iff` for a path that is typed. -/
theorem session_goes_on_iff_typed :
    (∃ t, run step (start ∅) typed = some t) ↔
      EachStep step (fun s i => Possible s i.2 ∧ PutsListed i.1 s i.2) (start ∅) typed := by
  refine session_goes_on_iff (eachStep_cons.mpr ⟨by decide, fun s hs => ?_⟩)
  obtain rfl := Option.some.inj hs
  exact eachStep_cons.mpr ⟨by decide, fun _ _ => eachStep_nil⟩

end TudorDo.Do
