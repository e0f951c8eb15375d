import TudorDo.Do

/-!
# The current word, counted in bytes and in characters

`find_last_space_pos` returns the position of a byte. `on_entry_changed_event` cuts a `std::string`
there; `on_completion_match`, `on_completion_match_selected` and the Tab key use the same number as
a position in a `Glib::ustring`, where it counts characters. `handlers_agree_iff`: they mean the
same place exactly when everything before the space is ASCII.
-/

namespace TudorDo

open Lib Lib.Ascii

namespace Ustring

theorem length_encode (cs : List Char) : length (Utf8.encode cs) = cs.length := by
  rw [length, Utf8.chars_encode, List.length_map]

/-- A character position cuts an encoded text between two characters, if it has that many. -/
theorem substrInt_encode (cs : List Char) (i : Nat) :
    substrInt (Utf8.encode cs) i =
      if i ≤ cs.length then .ok (Utf8.encode (cs.drop i)) else .error .outOfRange := by
  rw [substrInt, fromInt_natCast, Option.bind_some, Str.substrFrom, Utf8.chars_encode,
    List.length_map]
  split_ifs
  · rw [Option.map_some, checked_some, ← List.map_drop]
    rfl
  · rfl

theorem replace_encode (cs : List Char) (i : Nat) (repl : Bytes) :
    replace (Utf8.encode cs) i cs.length repl =
      if i ≤ cs.length then .ok (Utf8.encode (cs.take i) ++ repl) else .error .outOfRange := by
  rw [replace, fromInt_natCast, Option.bind_some, length_encode, Utf8.chars_encode]
  split_ifs
  · rw [checked_some, Str.replaceAt, List.drop_of_length_le (by simp), ← List.map_take]
    simp [Utf8.encode, List.flatMap_def]
  · rfl

end Ustring

namespace Do

section Agree

variable {cs : List Char} {k : Nat}

theorem lt_length_of_space (hspace : (Utf8.encode cs)[k]? = some space) :
    k + 1 ≤ (Utf8.encode cs).length :=
  (List.getElem?_eq_some_iff.mp hspace).1

/-- The position behind the space counts as many characters as bytes exactly when everything before
the space is ASCII. -/
theorem isAscii_take_iff (hspace : (Utf8.encode cs)[k]? = some space) :
    IsAscii ((Utf8.encode cs).take k) ↔
      k + 1 ≤ cs.length ∧ (Utf8.encode (cs.take (k + 1))).length = k + 1 := by
  rw [← Utf8.ascii_take_iff (lt_length_of_space hspace), List.take_add_one, hspace]
  simp only [Option.toList_some, List.mem_append, List.mem_singleton, or_imp, forall_and, forall_eq]
  exact (and_iff_left (by decide)).symm

/-- Cutting behind the space by characters keeps what cutting by bytes keeps. -/
theorem substrInt_space_iff (hspace : (Utf8.encode cs)[k]? = some space) :
    Ustring.substrInt (Utf8.encode cs) (k + 1 : Nat) = .ok ((Utf8.encode cs).drop (k + 1)) ↔
      IsAscii ((Utf8.encode cs).take k) := by
  have hlen := congrArg List.length (Utf8.encode_take_append_drop cs (k + 1))
  have hle := lt_length_of_space hspace
  rw [List.length_append] at hlen
  rw [isAscii_take_iff hspace, Ustring.substrInt_encode]
  split_ifs with hk
  · simp only [Except.ok.injEq, hk, true_and]
    constructor
    · intro h
      have := congrArg List.length h
      rw [List.length_drop] at this
      omega
    · intro h
      rw [← Utf8.encode_take_append_drop cs (k + 1), List.drop_left' h]
  · simp [hk]

/-- Replacing what is behind the space by characters keeps what is before it by bytes. -/
theorem replace_space_iff (hspace : (Utf8.encode cs)[k]? = some space) (repl : Bytes) :
    Ustring.replace (Utf8.encode cs) (k + 1 : Nat) (Ustring.length (Utf8.encode cs)) repl
        = .ok ((Utf8.encode cs).take (k + 1) ++ repl) ↔
      IsAscii ((Utf8.encode cs).take k) := by
  have hle := lt_length_of_space hspace
  rw [isAscii_take_iff hspace, Ustring.length_encode, Ustring.replace_encode]
  split_ifs with hk
  · simp only [Except.ok.injEq, hk, true_and, List.append_cancel_right_eq]
    constructor
    · intro h
      have := congrArg List.length h
      rw [List.length_take] at this
      omega
    · intro h
      rw [← Utf8.encode_take_append_drop cs (k + 1), List.take_left' h]
  · simp [hk]

/-- **The current word.** Let `find_last_space_pos` find a space in a UTF-8 text. The word the rows
are selected by is the text behind that space. The word a row is compared with, and what remains of
the text when a row is chosen from the list or with the Tab key, agree with it if and only if
everything before the space is ASCII. The `on_entry_changed_event` that `set_text`
runs leaves the text alone and is left to `perform` and `session_goes_on_iff`. -/
theorem handlers_agree_iff (hpos : findLastSpacePos (Utf8.encode cs) = .ok k)
    (hspace : (Utf8.encode cs)[k]? = some space) :
    currentWord (Utf8.encode cs) = .ok ((Utf8.encode cs).drop (k + 1)) ∧
    (matchString (Utf8.encode cs) = currentWord (Utf8.encode cs) ↔
      IsAscii ((Utf8.encode cs).take k)) ∧
    (∀ (s : Do) (row : Row), s.entry.text = Utf8.encode cs →
      ((∃ s', onCompletionMatchSelected s row = .ok (s', true) ∧
          s'.entry.text = (Utf8.encode cs).take (k + 1) ++ row.file) ↔
        IsAscii ((Utf8.encode cs).take k))) ∧
    ∀ (home : Bytes) (s : Do) (row : Row) (rows : List Row), s.entry.text = Utf8.encode cs →
      ¬ AtTilde s.entry → 2 < cs.length → s.liststore = row :: rows →
      s.entry.bound = s.entry.position →
      ((∃ s', onEntryKeyPressedEvent home .tab s = .ok (s', true) ∧
          s'.entry.text = (Utf8.encode cs).take (k + 1) ++ row.file) ↔
        IsAscii ((Utf8.encode cs).take k)) := by
  have hne : ((k : Int) ≠ -1) := by omega
  have hcast : ((k : Int) + 1) = ((k + 1 : Nat) : Int) := by omega
  have hword := currentWord_of_pos hpos (lt_length_of_space hspace)
  -- the two that replace the word differ only in what they do to the cursor
  have hreplace : ∀ (row : Row) (e : Bytes → Entry), (∀ text, (e text).text = text) → ∀ s : Do,
      (∃ s', (replaceWord (Utf8.encode cs) k row).bind (fun text =>
          .ok ({ s with entry := e text }, true)) = .ok (s', true) ∧
        s'.entry.text = (Utf8.encode cs).take (k + 1) ++ row.file) ↔
      IsAscii ((Utf8.encode cs).take k) := by
    intro row e he s
    rw [← replace_space_iff hspace row.file, replaceWord, hcast]
    cases Ustring.replace (Utf8.encode cs) (k + 1 : Nat) (Ustring.length (Utf8.encode cs))
        row.file with
    | error err => simp [Except.bind]
    | ok text => simp [Except.bind, he]
  refine ⟨hword, ?_, ?_, ?_⟩
  · rw [hword, ← substrInt_space_iff hspace, ← hcast]
    simp only [matchString, hpos, bind, Except.bind, if_pos hne]
  · intro s row htext
    rw [← hreplace row (fun text => (s.entry.setText text).setPositionEnd) (fun _ => rfl) s]
    simp only [onCompletionMatchSelected, htext, hpos, bind, Except.bind, if_pos hne, pure,
      Except.pure]
  · intro home s row rows htext htilde hlen hrows hsel
    rw [← hreplace row (fun text => (s.entry.setText text).selectToEnd s.entry.position)
      (fun _ => rfl) s]
    have hlong : ¬ (cs.length = 0 ∨ cs.length ≤ 2) := by omega
    simp only [onEntryKeyPressedEvent, if_neg htilde, htext, Ustring.length_encode, if_neg hlong,
      hrows, hpos, bind, Except.bind, hsel, and_true, if_pos hne, pure, Except.pure]

end Agree

/-- `handlers_agree_iff` with `é` behind the space: all three work on `/té`. -/
theorem handlers_agree_iff_te :
    matchString (bytes "ls /té") = currentWord (bytes "ls /té") ∧
    (∃ s', onCompletionMatchSelected (typing (bytes "ls /té") [⟨bytes "/", bytes "/tété"⟩])
        ⟨bytes "/", bytes "/tété"⟩ = .ok (s', true) ∧
      s'.entry.text = (bytes "ls /té").take 3 ++ bytes "/tété") ∧
    ∃ s', onEntryKeyPressedEvent [] .tab (typing (bytes "ls /té") [⟨bytes "/", bytes "/tété"⟩])
        = .ok (s', true) ∧
      s'.entry.text = (bytes "ls /té").take 3 ++ bytes "/tété" := by
  have hascii : IsAscii ((Utf8.encode "ls /té".toList).take 2) := by decide
  obtain ⟨-, hmatch, hselected, htab⟩ :=
    @handlers_agree_iff "ls /té".toList 2 (by decide) (by decide)
  exact ⟨hmatch.mpr hascii, (hselected _ _ rfl).mpr hascii,
    (htab [] (typing (bytes "ls /té") [⟨bytes "/", bytes "/tété"⟩]) _ [] rfl (by decide +kernel)
      (by decide) rfl rfl).mpr hascii⟩

/-- With `é` before the space the word is `/tm`, but a row is compared with `tm`, and the row
chosen is put behind the slash. -/
theorem handlers_disagree :
    currentWord (bytes "é /tm") = .ok (bytes "/tm") ∧
    matchString (bytes "é /tm") = .ok (bytes "tm") ∧
    (onCompletionMatchSelected (typing (bytes "é /tm") [⟨bytes "/", bytes "/tmp"⟩])
      ⟨bytes "/", bytes "/tmp"⟩).map (fun r => r.1.entry.text) = .ok (bytes "é //tmp") ∧
    (onEntryKeyPressedEvent [] .tab (typing (bytes "é /tm") [⟨bytes "/", bytes "/tmp"⟩])).map
      (fun r => r.1.entry.text) = .ok (bytes "é //tmp") := by
  decide +kernel

end Do

end TudorDo
