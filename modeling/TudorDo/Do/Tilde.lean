import TudorDo.Do

/-!
# The two expansions of a tilde

Behind a `~` the slash key and the Tab key both put the home directory in its place. The slash
itself is GTK's to insert, the Tab key brings one along. `tildes_agree_iff`: they leave the same
text, except for a `~` with nothing in front of it, which the slash key does not look at.
-/

namespace TudorDo

open Lib Lib.Ascii

/-- GTK inserts what is typed at the cursor, in place of what is selected. -/
def Entry.insertText (e : Entry) (str : Bytes) : Entry :=
  let start := min e.position e.bound
  let before := ((Utf8.chars e.text).take start).flatten
  let behind := ((Utf8.chars e.text).drop (max e.position e.bound)).flatten
  ⟨before ++ str ++ behind, start + Ustring.length str, start + Ustring.length str⟩

theorem Entry.insertText_setPositionEnd (e : Entry) (str : Bytes) :
    (e.setPositionEnd.insertText str).text = e.text ++ str := by
  simp [insertText, setPositionEnd, Ustring.length]

namespace Do

/-- A key is pressed that types `str`: GTK inserts it if the handler has not dealt with the key. -/
def pressKey (home : Bytes) (key : Key) (str : Bytes) (s : Do) : Except Exn Do := do
  let (s, handled) ← onEntryKeyPressedEvent home key s
  if handled then return s else return { s with entry := s.entry.insertText str }

variable {cs : List Char} {s : Do}

theorem chars_tilde (cs : List Char) :
    Utf8.chars (Utf8.encode cs ++ [tilde]) = cs.map String.utf8EncodeChar ++ [[tilde]] := by
  have hencode : Utf8.encode cs ++ [tilde] = Utf8.encode (cs ++ ['~']) := by
    rw [Utf8.encode_append]
    rfl
  rw [hencode, Utf8.chars_encode, List.map_append]
  rfl

theorem length_tilde (cs : List Char) :
    Ustring.length (Utf8.encode cs ++ [tilde]) = cs.length + 1 := by
  rw [Ustring.length, chars_tilde, List.length_append, List.length_map, List.length_singleton]

/-- A `~` alone the slash key leaves as it is; it is lost if it was selected. -/
theorem press_slash_alone (htext : s.entry.text = [tilde]) (hend : s.entry.position = 1)
    (home : Bytes) :
    (pressKey home .slash [slash] s).map (fun s => s.entry.text) =
      .ok ((if s.entry.bound = 0 then [] else [tilde]) ++ [slash]) := by
  have hshort : ¬ (s.entry.text.length - 1 > 0 ∧
      s.entry.text.drop (s.entry.text.length - 1) = [tilde]) := by
    rw [htext]
    decide
  have hchars : Utf8.chars s.entry.text = [[tilde]] := by
    rw [htext]
    exact chars_tilde []
  simp only [pressKey, onEntryKeyPressedEvent, if_neg hshort, bind, Except.bind, pure, Except.pure,
    Except.map]
  show Except.ok (s.entry.insertText [slash]).text = _
  simp only [Entry.insertText, hchars, hend]
  by_cases hbound : s.entry.bound = 0
  · rw [hbound]
    rfl
  · have hmin : min 1 s.entry.bound = 1 := by omega
    have hdrop : [[tilde]].drop (max 1 s.entry.bound) = [] := by
      apply List.drop_of_length_le
      exact Nat.le_max_left 1 s.entry.bound
    rw [hmin, hdrop, if_neg hbound]
    rfl

section Behind

variable (htext : s.entry.text = Utf8.encode cs ++ [tilde])

include htext

theorem atTilde (hend : s.entry.position = Ustring.length s.entry.text) : AtTilde s.entry := by
  refine ⟨?_, ?_, hend⟩
  · rw [htext, length_tilde]
    omega
  · rw [htext, length_tilde, Ustring.substr, chars_tilde]
    simp [Str.substr]

/-- The Tab key replaces the last character, whatever is in front of it. -/
theorem press_tab (hend : s.entry.position = Ustring.length s.entry.text) (home : Bytes) :
    (pressKey home .tab [tab] s).map (fun s => s.entry.text) =
      .ok (Utf8.encode cs ++ home ++ [slash]) := by
  have hreplace : Ustring.replace s.entry.text (Ustring.length s.entry.text - 1)
      (home ++ [slash]).length (home ++ [slash]) = .ok (Utf8.encode cs ++ (home ++ [slash])) := by
    have hpos : fromInt ((cs.length + 1 : Nat) - 1) = some cs.length := by
      have hcast : ((cs.length + 1 : Nat) : Int) - 1 = cs.length := by omega
      rw [hcast, fromInt_natCast]
    have hdrop : (cs.map String.utf8EncodeChar ++ [[tilde]]).drop
        (cs.length + (home ++ [slash]).length) = [] := by
      apply List.drop_of_length_le
      simp only [List.length_append, List.length_map, List.length_singleton]
      omega
    rw [htext, Ustring.replace, length_tilde, chars_tilde, hpos, Option.bind_some,
      if_pos (Nat.le_succ _), checked_some, Str.replaceAt, hdrop, List.take_left' (by simp)]
    simp [Utf8.encode, List.flatMap_def]
  have htilde := atTilde htext hend
  simp only [pressKey, onEntryKeyPressedEvent, if_pos htilde, hreplace, bind, Except.bind, pure,
    Except.pure, Except.map]
  simp

/-- So does the slash key, if there is anything in front of it. -/
theorem press_slash (hcs : cs ≠ []) (home : Bytes) :
    (pressKey home .slash [slash] s).map (fun s => s.entry.text) =
      .ok (Utf8.encode cs ++ home ++ [slash]) := by
  have hlen : s.entry.text.length - 1 = (Utf8.encode cs).length := by
    rw [htext, List.length_append]
    rfl
  have hpos : 0 < (Utf8.encode cs).length := by
    have := Utf8.length_le_length_encode cs
    have := List.length_pos_iff.mpr hcs
    omega
  have htilde : (Utf8.encode cs).length > 0 ∧
      s.entry.text.drop (Utf8.encode cs).length = [tilde] := by
    rw [htext, List.drop_left' rfl]
    exact ⟨hpos, rfl⟩
  have htake : s.entry.text.take (Utf8.encode cs).length = Utf8.encode cs := by
    rw [htext, List.take_left' rfl]
  simp only [pressKey, onEntryKeyPressedEvent, hlen, if_pos htilde, htake, bind, Except.bind, pure,
    Except.pure, Except.map]
  show Except.ok (((s.entry.setText (Utf8.encode cs ++ home)).setPositionEnd).insertText [slash]).text
    = _
  rw [Entry.insertText_setPositionEnd, Entry.setText_text]

end Behind

/-- **The two expansions of a tilde.** With a `~` before the cursor at the end of the text, pressing
the slash and pressing Tab both leave the text with the home directory and a slash in the place of
the `~`, if and only if there is something in front of it or the home directory is what the slash
key leaves of a `~` alone. This is about the handler and what GTK inserts; the
`on_entry_changed_event` that `set_text` runs in between leaves the text alone and is left to
`perform` and `session_goes_on_iff`. -/
theorem tildes_agree_iff (htext : s.entry.text = Utf8.encode cs ++ [tilde])
    (hend : s.entry.position = Ustring.length s.entry.text) (home : Bytes) :
    ((pressKey home .slash [slash] s).map (fun s => s.entry.text) =
        .ok (Utf8.encode cs ++ home ++ [slash]) ∧
      (pressKey home .tab [tab] s).map (fun s => s.entry.text) =
        .ok (Utf8.encode cs ++ home ++ [slash])) ↔
      cs ≠ [] ∨ home = if s.entry.bound = 0 then [] else [tilde] := by
  rw [and_iff_left (press_tab htext hend home)]
  by_cases hcs : cs = []
  · subst hcs
    have hend' : s.entry.position = 1 := by
      rw [hend, htext, length_tilde]
      rfl
    rw [press_slash_alone htext hend', or_iff_right (not_not.mpr rfl)]
    show Except.ok (_ ++ [slash]) = Except.ok (home ++ [slash]) ↔ _
    rw [Except.ok.injEq, List.append_left_inj]
    exact eq_comm
  · exact iff_of_true (press_slash htext hcs home) (.inl hcs)

/-- `tildes_agree_iff` with a character of two bytes before the `~`. -/
theorem tildes_agree_iff_cafe :
    (pressKey (bytes "/root") .slash [slash] (typing (bytes "é~") [])).map (fun s => s.entry.text) =
        .ok (bytes "é/root/") ∧
      (pressKey (bytes "/root") .tab [tab] (typing (bytes "é~") [])).map (fun s => s.entry.text) =
        .ok (bytes "é/root/") :=
  (@tildes_agree_iff "é".toList (typing (bytes "é~") []) (by decide) rfl (bytes "/root")).mpr
    (.inl (by decide))

/-- A `~` alone: with the slash key it stays, with the Tab key it does not. -/
theorem tilde_alone_kept :
    (pressKey (bytes "/root") .slash [slash] (typing (bytes "~") [])).map (fun s => s.entry.text) =
        .ok (bytes "~/") ∧
      (pressKey (bytes "/root") .tab [tab] (typing (bytes "~") [])).map (fun s => s.entry.text) =
        .ok (bytes "/root/") := by
  decide +kernel

end Do

end TudorDo
