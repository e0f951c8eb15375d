import TudorDo.Do

/-!
# The history

A command with a space in it that could be started is remembered, in the form it was started in: a
path or a URL that is no program has `xdg-open` in front of it. `history_replays`: over any number of
activations nothing else gets into the history and nothing leaves it, and what is in it is started
again as it stands, since it is never a text that `on_entry_activate` would put `xdg-open` before.
-/

namespace TudorDo.Do

open Lib Lib.Ascii Glib

variable {fs : FileSystem} {s : Do}

/-! ## One activation -/

/-- The command line `on_entry_activate` makes of a text. -/
def command (fs : FileSystem) (text : Bytes) : Bytes :=
  if text.take 1 = [slash] ∨ text.take 7 = bytes "http://" then
    if fs.testIsRegular text ∧ fs.accessX text then text else bytes "xdg-open " ++ text
  else text

theorem onEntryActivate_eq (fs : FileSystem) (start : List Bytes → Bool) (s : Do) :
    onEntryActivate fs start s = s.execute start (command fs s.entry.text) := by
  simp only [onEntryActivate, command]
  split_ifs <;> rfl

theorem command_of_program {text : Bytes} (h : fs.testIsRegular text ∧ fs.accessX text) :
    command fs text = text := by
  rw [command, if_pos h, ite_self]

theorem command_of_plain {text : Bytes}
    (h : ¬ (text.take 1 = [slash] ∨ text.take 7 = bytes "http://")) : command fs text = text :=
  if_neg h

/-- A command line is neither a path nor a URL unless it is the path of a program. -/
theorem command_command (fs : FileSystem) (text : Bytes) :
    command fs (command fs text) = command fs text := by
  by_cases hplain : text.take 1 = [slash] ∨ text.take 7 = bytes "http://"
  · by_cases hprogram : fs.testIsRegular text ∧ fs.accessX text
    · rw [command_of_program hprogram, command_of_program hprogram]
    · have hopen : command fs text = bytes "xdg-open " ++ text := by
        rw [command, if_pos hplain, if_neg hprogram]
      rw [hopen]
      apply command_of_plain
      rw [List.take_append_of_le_length (by decide), List.take_append_of_le_length (by decide)]
      decide
  · rw [command_of_plain hplain, command_of_plain hplain]

/-- The Enter key with `text` in the entry; `start` answers for the programs started by it. -/
structure Activation where
  text : Bytes
  start : List Bytes → Bool

/-- An activation started its command line. -/
def Activation.Starts (fs : FileSystem) (a : Activation) : Prop :=
  ∃ argv, spawnCommandLineAsync a.start (command fs a.text) = .started argv

/-- `on_entry_activate` with the text of the activation in the entry. -/
def activate (fs : FileSystem) (a : Activation) (s : Do) : Do × Spawn :=
  onEntryActivate fs a.start { s with entry := s.entry.setText a.text }

theorem activate_eq (a : Activation) :
    activate fs a s =
      ({ s with entry := s.entry.setText a.text } : Do).execute a.start (command fs a.text) :=
  onEntryActivate_eq ..

theorem history_of_starts {a : Activation} (h : a.Starts fs) :
    (activate fs a s).1.history =
      if space ∈ command fs a.text then s.history.insert (command fs a.text) else s.history := by
  obtain ⟨argv, hspawn⟩ := h
  simp only [activate_eq, execute, hspawn]

theorem history_of_not_starts {a : Activation} (h : ¬ a.Starts fs) :
    (activate fs a s).1.history = s.history := by
  simp only [activate_eq, execute]
  split
  · next argv hspawn => exact absurd ⟨argv, hspawn⟩ h
  · rfl

/-- `h` is what an activation adds to the history. -/
structure Activation.Records (fs : FileSystem) (a : Activation) (h : Bytes) : Prop where
  space_mem : space ∈ h
  command_eq : command fs a.text = h
  starts : a.Starts fs

theorem mem_history_activate {a : Activation} {h : Bytes} :
    h ∈ (activate fs a s).1.history ↔ h ∈ s.history ∨ a.Records fs h := by
  by_cases hstarts : a.Starts fs
  · rw [history_of_starts hstarts]
    by_cases hspace : space ∈ command fs a.text
    · rw [if_pos hspace, Std.ExtTreeSet.mem_insert, Std.LawfulEqCmp.compare_eq_iff_eq, or_comm]
      have hrecords : a.Records fs h ↔ command fs a.text = h := by
        constructor
        · intro hr
          exact hr.command_eq
        · rintro rfl
          exact ⟨hspace, rfl, hstarts⟩
      rw [hrecords]
    · have hrecords : ¬ a.Records fs h := fun hr => hspace (hr.command_eq ▸ hr.space_mem)
      rw [if_neg hspace, or_iff_left hrecords]
  · have hrecords : ¬ a.Records fs h := fun hr => hstarts hr.starts
    rw [history_of_not_starts hstarts, or_iff_left hrecords]

/-! ## Any number of them -/

/-- The dialog after activations in order. -/
def activateAll (fs : FileSystem) (s : Do) (as : List Activation) : Do :=
  as.foldl (fun s a => (activate fs a s).1) s

theorem mem_history_activateAll {as : List Activation} {h : Bytes} :
    h ∈ (activateAll fs s as).history ↔ h ∈ s.history ∨ ∃ a ∈ as, a.Records fs h := by
  induction as generalizing s with
  | nil => simp [activateAll]
  | cons a as ih =>
      have hrest : h ∈ (activateAll fs s (a :: as)).history ↔
          h ∈ (activate fs a s).1.history ∨ ∃ a ∈ as, a.Records fs h := ih
      rw [hrest, mem_history_activate, or_assoc, List.exists_mem_cons_iff]

/-- Activating what is in the history already leaves the history as it is. -/
theorem history_activate_of_mem {a : Activation} (hmem : command fs a.text ∈ s.history) :
    (activate fs a s).1.history = s.history := by
  apply Std.ExtTreeSet.ext_mem
  intro h
  rw [mem_history_activate, or_iff_left_iff_imp]
  intro hr
  rw [← hr.command_eq]
  exact hmem

/-- **The history.** After any number of activations from an empty history, it holds the command
lines with a space that were started, and no others. An activation that starts nothing leaves it as
it is, none takes anything out of it, and one of a command line in it spawns that command line and
leaves it as it is. -/
theorem history_replays (hs : s.history = ∅) (as : List Activation) :
    (∀ h, h ∈ (activateAll fs s as).history ↔
      space ∈ h ∧ ∃ a ∈ as, command fs a.text = h ∧ a.Starts fs) ∧
    (∀ a, ¬ a.Starts fs →
      (activate fs a (activateAll fs s as)).1.history = (activateAll fs s as).history) ∧
    (∀ a, ∀ h ∈ (activateAll fs s as).history,
      h ∈ (activate fs a (activateAll fs s as)).1.history) ∧
    ∀ h ∈ (activateAll fs s as).history, ∀ start,
      (activate fs ⟨h, start⟩ (activateAll fs s as)).2 = spawnCommandLineAsync start h ∧
      (activate fs ⟨h, start⟩ (activateAll fs s as)).1.history =
        (activateAll fs s as).history := by
  have hmem : ∀ h, h ∈ (activateAll fs s as).history ↔ ∃ a ∈ as, a.Records fs h := by
    intro h
    rw [mem_history_activateAll, hs]
    exact or_iff_right Std.ExtTreeSet.not_mem_empty
  refine ⟨fun h => ?_, fun a => history_of_not_starts, fun a h hh => ?_, fun h hh start => ?_⟩
  · rw [hmem]
    constructor
    · rintro ⟨a, ha, hr⟩
      exact ⟨hr.space_mem, a, ha, hr.command_eq, hr.starts⟩
    · rintro ⟨hspace, a, ha, hcommand, hstarts⟩
      exact ⟨a, ha, hspace, hcommand, hstarts⟩
  · exact mem_history_activate.mpr (.inl hh)
  · obtain ⟨a, -, hr⟩ := (hmem h).mp hh
    have hfixed : command fs h = h := by
      rw [← hr.command_eq, command_command]
    constructor
    · rw [activate_eq]
      show spawnCommandLineAsync start (command fs h) = _
      rw [hfixed]
    · exact history_activate_of_mem (hfixed.symm ▸ hh)

/-- `history_replays` for a command, a file and a program that is not found. -/
theorem history_replays_three :
    (activateAll .oneRegularFile (typing [] []) [⟨bytes "ls -l", fun _ => true⟩,
      ⟨bytes "/f", fun _ => true⟩, ⟨bytes "sl -l", fun _ => false⟩]).history.toList =
        [bytes "ls -l", bytes "xdg-open /f"] ∧
    (activate .oneRegularFile ⟨bytes "xdg-open /f", fun _ => true⟩
      (activateAll .oneRegularFile (typing [] []) [⟨bytes "ls -l", fun _ => true⟩,
        ⟨bytes "/f", fun _ => true⟩, ⟨bytes "sl -l", fun _ => false⟩])).2 =
      .started [bytes "xdg-open", bytes "/f"] := by
  refine ⟨by decide +kernel, ?_⟩
  have hmem : bytes "xdg-open /f" ∈
      (activateAll .oneRegularFile (typing [] []) [⟨bytes "ls -l", fun _ => true⟩,
        ⟨bytes "/f", fun _ => true⟩, ⟨bytes "sl -l", fun _ => false⟩]).history := by
    decide +kernel
  rw [((history_replays rfl _).2.2.2 _ hmem _).1]
  decide +kernel

end TudorDo.Do
