import TudorDo.Do

/-!
# From the text of the entry to the arguments of a program

A suggested path has its spaces escaped and nothing else. `spawn_suggested_iff`: the shell parser
gives the path back exactly when it has no other special character. `activate_iff`:
`on_entry_activate` looks for a file whose name is the text itself, escapes and arguments included,
and where there is none it hands the path to `xdg-open`.
-/

namespace TudorDo.Do

open Lib Lib.Ascii Glib

/-! ## A path as an argument -/

/-- The special characters of `p` are spaces. -/
def OnlySpaces (p : Bytes) : Prop := ∀ c ∈ p, Shell.isSpecial c = true → c = space

instance (p : Bytes) : Decidable (OnlySpaces p) :=
  List.decidableBAll (fun c => Shell.isSpecial c = true → c = space) p

theorem nul_not_mem_escape {p : Bytes} (h : 0 ∉ p) : 0 ∉ Str.escape backslash space p :=
  fun hmem => h ((Str.mem_escape_of_ne (by decide)).mp hmem)

theorem argv_spawn {start : List Bytes → Bool} {command : Bytes} (hnul : 0 ∉ command)
    {argv : List Bytes} (hne : argv ≠ []) :
    (spawnCommandLineAsync start command).argv = some argv ↔
      Shell.go .unquoted none command = .ok argv := by
  rw [argv_spawnCommandLineAsync, cStr_of_not_mem hnul, Shell.parseArgv_eq_ok hne]

theorem map_eq_ok_iff (ws : List Bytes) {r : Except Shell.Error (List Bytes)} {args : List Bytes} :
    r.map (ws ++ ·) = .ok (ws ++ args) ↔ r = .ok args := by
  cases r with
  | error e => simp [Except.map]
  | ok args' => simp [Except.map]

/-- The words of a command with a space behind each. -/
theorem intercalate_append {ws : List Bytes} (hne : ws ≠ []) (s : Bytes) :
    [space].intercalate ws ++ space :: s = ws.flatMap (fun w => w ++ [space]) ++ s := by
  induction ws with
  | nil => exact absurd rfl hne
  | cons w ws ih =>
      cases ws with
      | nil => simp
      | cons w' ws =>
          have ih := ih (by simp)
          rw [List.intercalate_cons_cons, List.flatMap_cons, List.append_assoc, List.append_assoc,
            List.append_assoc, ih, List.append_assoc]

/-- **A completed path is one argument.** Behind the plain words of a command, a suggested path is
handed over as the one argument it stands for if and only if it has no special character but
spaces. -/
theorem spawn_suggested_iff (start : List Bytes → Bool) {words : List Bytes} (hne : words ≠ [])
    (hwords : ∀ w ∈ words, Shell.PlainWord w) (hnul : ∀ w ∈ words, 0 ∉ w) {p : Bytes}
    (habs : p.head? = some slash) (hp : 0 ∉ p) :
    (spawnCommandLineAsync start ([space].intercalate words ++ space :: escapeSpaces p)).argv =
        some (words ++ [p]) ↔
      OnlySpaces p := by
  have hpne : p ≠ [] := by
    rintro rfl
    simp at habs
  rw [escapeSpaces_eq, intercalate_append hne]
  have hnul' : 0 ∉ words.flatMap (fun w => w ++ [space]) ++ Str.escape backslash space p := by
    simp only [List.mem_append, List.mem_flatMap, List.mem_singleton, not_or, not_exists, not_and]
    exact ⟨fun w hw => ⟨hnul w hw, by decide⟩, nul_not_mem_escape hp⟩
  rw [argv_spawn hnul' (by simp), Shell.go_words hwords, map_eq_ok_iff]
  exact Shell.go_escape_iff hpne

/-- `spawn_suggested_iff` for `cat` and `/my file`. -/
theorem spawn_suggested_iff_cat :
    (spawnCommandLineAsync (fun _ => true)
        ([space].intercalate [bytes "cat"] ++ space :: escapeSpaces (bytes "/my file"))).argv =
      some ([bytes "cat"] ++ [bytes "/my file"]) :=
  (spawn_suggested_iff (fun _ => true) (by decide) (by decide) (by decide) (by decide)
    (by decide)).mpr (by decide)

/-- The backslash of a path is taken for an escape and lost. -/
theorem spawn_suggested_backslash :
    (spawnCommandLineAsync (fun _ => true)
        ([space].intercalate [bytes "cat"] ++ space :: escapeSpaces (bytes "/a\\b"))).argv =
      some [bytes "cat", bytes "/ab"] := by
  decide +kernel

/-! ## Activating a path -/

section Activate

variable {fs : FileSystem} {start : List Bytes → Bool} {s : Do} {p : Bytes}

/-- `on_entry_activate` takes the text itself for a program. -/
def RunsText (fs : FileSystem) (text : Bytes) : Prop :=
  fs.testIsRegular text = true ∧ fs.accessX text = true

instance (fs : FileSystem) (text : Bytes) : Decidable (RunsText fs text) :=
  inferInstanceAs (Decidable (_ ∧ _))

theorem onEntryActivate_of_slash (h : s.entry.text.head? = some slash) :
    (onEntryActivate fs start s).2 = spawnCommandLineAsync start
      (if RunsText fs s.entry.text then s.entry.text else bytes "xdg-open " ++ s.entry.text) := by
  have htake : s.entry.text.take 1 = [slash] := by
    rw [List.take_one, h]
    rfl
  by_cases hruns : RunsText fs s.entry.text
  · rw [if_pos hruns]
    unfold RunsText at hruns
    simp only [onEntryActivate, htake, true_or, if_true, if_pos hruns, execute]
  · rw [if_neg hruns]
    unfold RunsText at hruns
    simp only [onEntryActivate, htake, true_or, if_true, if_neg hruns, execute]

/-- A text that starts with a slash has a first argument that does. -/
theorem head_of_go {text : Bytes} (h : text.head? = some slash) {a : Bytes} {args : List Bytes}
    (hgo : Shell.go .unquoted none text = .ok (a :: args)) : a.head? = some slash := by
  obtain ⟨text, rfl⟩ := List.head?_eq_some_iff.mp h
  rw [Shell.go_cons_plain (by decide)] at hgo
  obtain ⟨a', rest, hcons⟩ := Shell.go_first hgo
  obtain ⟨rfl, -⟩ := List.cons.inj hcons
  rfl

theorem go_xdg_open (text : Bytes) :
    Shell.go .unquoted none (bytes "xdg-open " ++ text) =
      (Shell.go .unquoted none text).map (bytes "xdg-open" :: ·) :=
  Shell.go_word_space (w := bytes "xdg-open") (by decide) text

/-- **Activating a path.** A program typed with arguments is run with them if and only if the text
itself, escapes and arguments included, names an executable regular file. A path that is no program
is handed to `xdg-open` if and only if it has no special character but spaces and its escaped form
names no executable regular file. -/
theorem activate_iff (habs : p.head? = some slash) (hp : 0 ∉ p) :
    (∀ args : List Bytes, fs.testIsRegular p = true → fs.accessX p = true → OnlySpaces p →
      (∀ a ∈ args, Shell.PlainWord a ∧ 0 ∉ a) →
      s.entry.text = escapeSpaces p ++ args.flatMap (fun a => space :: a) →
      ((onEntryActivate fs start s).2.argv = some (p :: args) ∧
          (∀ rest, (onEntryActivate fs start s).2.argv ≠ some (bytes "xdg-open" :: rest)) ↔
        RunsText fs s.entry.text)) ∧
    (fs.testExists p = true → ¬ RunsText fs p → s.entry.text = escapeSpaces p →
      ((onEntryActivate fs start s).2.argv = some [bytes "xdg-open", p] ↔
        OnlySpaces p ∧ ¬ RunsText fs s.entry.text)) := by
  have hxdg : (bytes "xdg-open").head? ≠ some slash := by decide
  have hne : p ≠ [] := by
    rintro rfl
    simp at habs
  have hescnul := nul_not_mem_escape hp
  have heschead : (Str.escape backslash space p).head? = some slash := by
    obtain ⟨p, rfl⟩ := List.head?_eq_some_iff.mp habs
    rw [escape_slash]
    rfl
  have hxdgnul : ∀ {text : Bytes}, 0 ∉ text → 0 ∉ bytes "xdg-open " ++ text := by
    intro text htext hmem
    rcases List.mem_append.mp hmem with h | h
    · exact absurd h (by decide)
    · exact htext h
  rw [escapeSpaces_eq]
  constructor
  · intro args _ _ hspaces hargs htext
    have hgo : Shell.go .unquoted none s.entry.text = .ok (p :: args) := by
      rw [htext]
      exact Shell.go_escape_words hne hspaces fun a ha => (hargs a ha).1
    have hnul : 0 ∉ s.entry.text := by
      rw [htext]
      simp only [List.mem_append, List.mem_flatMap, List.mem_cons, not_or, not_exists, not_and]
      exact ⟨hescnul, fun a ha => ⟨by decide, (hargs a ha).2⟩⟩
    rw [onEntryActivate_of_slash (by rw [htext, List.head?_append, heschead]; rfl)]
    -- the parser finds `p` and its arguments in the text; what decides is who is given the text
    by_cases hruns : RunsText fs s.entry.text
    · rw [if_pos hruns, argv_spawn hnul (by simp)]
      refine iff_of_true ⟨hgo, fun rest hrest => ?_⟩ hruns
      rw [argv_spawn hnul (by simp), hgo] at hrest
      exact hxdg ((List.cons.inj (Except.ok.inj hrest)).1 ▸ habs)
    · rw [if_neg hruns, argv_spawn (hxdgnul hnul) (by simp), go_xdg_open, hgo]
      refine iff_of_false (fun h => ?_) hruns
      exact hxdg ((List.cons.inj (Except.ok.inj h.1)).1 ▸ habs)
  · intro _ _ htext
    rw [onEntryActivate_of_slash (htext ▸ heschead), htext]
    by_cases hruns : RunsText fs (Str.escape backslash space p)
    · rw [if_pos hruns, argv_spawn hescnul (by simp)]
      exact iff_of_false (fun hgo => hxdg (head_of_go heschead hgo)) fun h => h.2 hruns
    · rw [if_neg hruns, argv_spawn (hxdgnul hescnul) (by simp), go_xdg_open, and_iff_left hruns]
      exact (map_eq_ok_iff [bytes "xdg-open"]).trans (Shell.go_escape_iff hne)

end Activate

/-- The program `/my prog`, a program whose name is what is typed to run it with the argument `x`,
and the document `/a doc`. -/
def spacedFiles : FileSystem where
  fileType path :=
    if path = bytes "/my prog" ∨ path = bytes "/my\\ prog x" ∨ path = bytes "/a doc" then
      some .regular
    else none
  accessX path := path = bytes "/my prog" ∨ path = bytes "/my\\ prog x"
  openDir _ := none
  openDir_names := by simp

/-- `activate_iff` for a program with an argument and a document, both with a space in their paths. -/
theorem activate_iff_spaces :
    (onEntryActivate spacedFiles (fun _ => true) (typing (bytes "/my\\ prog x") [])).2.argv =
        some [bytes "/my prog", bytes "x"] ∧
      (onEntryActivate spacedFiles (fun _ => true) (typing (bytes "/a\\ doc") [])).2.argv =
        some [bytes "xdg-open", bytes "/a doc"] :=
  ⟨(((activate_iff (p := bytes "/my prog") (by decide) (by decide)).1 [bytes "x"] (by decide)
      (by decide) (by decide) (by decide) (by decide +kernel)).mpr (by decide)).1,
    ((activate_iff (p := bytes "/a doc") (by decide) (by decide)).2 (by decide) (by decide)
      (by decide +kernel)).mpr (by decide)⟩

/-- A file system with the programs `/ls` and `/my prog` and the file `/doc`. -/
def threeFiles : FileSystem where
  fileType path :=
    if path = bytes "/ls" ∨ path = bytes "/my prog" ∨ path = bytes "/doc" then some .regular
    else none
  accessX path := path = bytes "/ls" ∨ path = bytes "/my prog"
  openDir _ := none
  openDir_names := by simp

/-- A program with a space in its path, and a program with an argument, are opened as documents. -/
theorem program_opened :
    RunsText threeFiles (bytes "/my prog") ∧
    (onEntryActivate threeFiles (fun _ => true)
        (typing (escapeSpaces (bytes "/my prog")) [])).2.argv =
      some [bytes "xdg-open", bytes "/my prog"] ∧
    RunsText threeFiles (bytes "/ls") ∧
    (onEntryActivate threeFiles (fun _ => true)
        (typing (escapeSpaces (bytes "/ls") ++ space :: bytes "x") [])).2.argv =
      some [bytes "xdg-open", bytes "/ls", bytes "x"] := by
  decide +kernel

end TudorDo.Do
