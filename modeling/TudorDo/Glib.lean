import Mathlib.Data.List.DropRight
import TudorDo.Lib.Shell

/-!
# What the dialog takes from glib

Paths are taken apart and put together as glib does it: `path_get_dirname` splits at the last slash
and drops the slashes before it, `build_filename` puts exactly one slash between a directory and a
name. The file system is what the calls about files are answered from, and a command line is
started by splitting it into arguments first; comments in a command line are not modelled.
-/

namespace TudorDo

open Lib Lib.Ascii

namespace Glib

/-! ## Paths -/

/-- The path without the slashes it ends with. -/
def dropSlashes (path : Bytes) : Bytes := path.rdropWhile (· = slash)

/-- `Glib::path_get_dirname`. -/
def pathGetDirname (path : Bytes) : Bytes :=
  match Str.findLastOf slash path with
  | none => bytes "."
  | some i =>
    let dir := dropSlashes (path.take i)
    if dir = [] then [slash] else dir

/-- `Glib::path_get_basename`. -/
def pathGetBasename (path : Bytes) : Bytes :=
  if path = [] then bytes "."
  else
    let path := dropSlashes path
    if path = [] then [slash] else path.rtakeWhile (· ≠ slash)

/-- `Glib::build_filename` of a directory and a name in it; a name has no slash and is not empty. -/
def buildFilename (dir name : Bytes) : Bytes :=
  if dropSlashes dir = [] then dir ++ name else dropSlashes dir ++ slash :: name

theorem dropSlashes_of_getLast? {path : Bytes} (h : path.getLast? ≠ some slash) :
    dropSlashes path = path := by
  apply List.rdropWhile_eq_self_iff.mpr
  intro hl
  rw [List.getLast?_eq_some_getLast hl] at h
  simpa using h

/-- The last component starts behind the last slash. -/
theorem pathGetDirname_append (l : Bytes) {r : Bytes} (hr : slash ∉ r) :
    pathGetDirname (l ++ slash :: r) = if dropSlashes l = [] then [slash] else dropSlashes l := by
  rw [pathGetDirname, Str.findLastOf_append_cons hr]
  simp

theorem pathGetBasename_append (l : Bytes) {r : Bytes} (hr : slash ∉ r) (hne : r ≠ []) :
    pathGetBasename (l ++ slash :: r) = r := by
  have hdrop : dropSlashes (l ++ slash :: r) = l ++ slash :: r := by
    refine dropSlashes_of_getLast? fun h => hr ?_
    rw [List.getLast?_append, List.getLast?_cons, List.getLast?_eq_some_getLast hne] at h
    have hlast : r.getLast hne = slash := by simpa using h
    exact hlast ▸ List.getLast_mem hne
  rw [pathGetBasename, if_neg (by simp), hdrop, if_neg (by simp)]
  rw [List.rtakeWhile, List.reverse_append, List.reverse_cons, List.append_assoc,
    List.takeWhile_append_of_pos, List.singleton_append, List.takeWhile_cons_of_neg (by simp)]
  · simp
  · intro c hc
    have hc : c ∈ r := List.mem_reverse.mp hc
    simpa using fun h : c = slash => hr (h ▸ hc)

theorem getLast?_dropSlashes (path : Bytes) : (dropSlashes path).getLast? ≠ some slash := by
  intro h
  have hne : dropSlashes path ≠ [] := fun hnil => by simp [hnil] at h
  apply List.rdropWhile_last_not _ _ hne
  rw [List.getLast?_eq_some_getLast hne] at h
  exact decide_eq_true (Option.some.inj h)

theorem buildFilename_of_getLast? {dir : Bytes} (h : dir.getLast? ≠ some slash) (hne : dir ≠ [])
    (name : Bytes) : buildFilename dir name = dir ++ slash :: name := by
  rw [buildFilename, dropSlashes_of_getLast? h, if_neg hne]

/-! ## Files -/

inductive FileType
  | regular
  | directory
  | other
  deriving DecidableEq

/-- The file system, as a program asks about it by path. -/
structure FileSystem where
  /-- what a path names, if anything, symbolic links followed -/
  fileType : Bytes → Option FileType
  /-- `access(path, X_OK)` succeeds -/
  accessX : Bytes → Bool
  /-- the names in the directory a path names, if it can be read -/
  openDir : Bytes → Option (List Bytes)
  openDir_names : ∀ path names, openDir path = some names → ∀ n ∈ names, n ≠ [] ∧ slash ∉ n

namespace FileSystem

/-- `file_test(path, FILE_TEST_EXISTS)`. -/
def testExists (fs : FileSystem) (path : Bytes) : Bool := (fs.fileType path).isSome

/-- `file_test(path, FILE_TEST_IS_REGULAR)`. -/
def testIsRegular (fs : FileSystem) (path : Bytes) : Bool := fs.fileType path = some .regular

theorem names_of_none {names : List Bytes} (h : none = some names) :
    ∀ n ∈ names, n ≠ [] ∧ slash ∉ n := by
  cases h

/-- The regular file `/f`, which is no program, and nothing else. -/
def oneRegularFile : FileSystem where
  fileType path := if path = bytes "/f" then some .regular else none
  accessX _ := false
  openDir _ := none
  openDir_names _ _ := names_of_none

end FileSystem

/-! ## Commands -/

/-- A string up to its first NUL, which is what a C function reads of it. -/
def cStr (s : Bytes) : Bytes := s.takeWhile (· ≠ 0)

theorem cStr_of_not_mem {s : Bytes} (h : 0 ∉ s) : cStr s = s := by
  apply List.takeWhile_eq_self_iff.mpr
  intro c hc
  simpa using fun h0 : c = 0 => h (h0 ▸ hc)

/-- What came of a command line. -/
inductive Spawn
  | shellError (e : Shell.Error)
  /-- `Glib::SpawnError`: the program could not be started -/
  | spawnError (argv : List Bytes)
  | started (argv : List Bytes)
  deriving DecidableEq

/-- `Glib::spawn_command_line_async`; `start` answers whether a program with these arguments can be
started. -/
def spawnCommandLineAsync (start : List Bytes → Bool) (command : Bytes) : Spawn :=
  match Shell.parseArgv (cStr command) with
  | .error e => .shellError e
  | .ok argv => if start argv then .started argv else .spawnError argv

/-- The arguments handed over to be started. -/
def Spawn.argv : Spawn → Option (List Bytes)
  | .shellError _ => none
  | .spawnError argv => some argv
  | .started argv => some argv

theorem argv_spawnCommandLineAsync (start : List Bytes → Bool) (command : Bytes)
    (argv : List Bytes) :
    (spawnCommandLineAsync start command).argv = some argv ↔
      Shell.parseArgv (cStr command) = .ok argv := by
  unfold spawnCommandLineAsync
  cases Shell.parseArgv (cStr command) with
  | error e => simp [Spawn.argv]
  | ok args => cases hstart : start args <;> simp [Spawn.argv, hstart]

end Glib

end TudorDo
