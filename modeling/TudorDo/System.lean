import Mathlib.Logic.Function.Basic
import TudorDo.Monitor.Replay

/-!
# The program and the file system, step by step

The dialog's constructor lists each directory of `PATH` and puts it on the watch list
(`update_path`), and then starts the thread that puts the watches in place and handles events
(`PathMonitor::run`). Other programs change directories at any time between two of these steps:
`System.step` takes one step of either side.

`Inv` is what holds in all states that runs with creations only can reach: every watch is on a
directory of `PATH` and under its descriptor, what is queued comes from watched directories, and
what start-up has still to do is still to do.
-/

namespace TudorDo

open Lib PathMonitor

/-! ## States and steps -/

/-- How far the program is. -/
inductive Pc
  /-- in `update_path`, with these directories to go -/
  | listing (dirs : List Bytes)
  /-- in `update_path`, with `d` listed and to be put on the watch list -/
  | monitoring (d : Bytes) (dirs : List Bytes)
  /-- the constructor is about to start the thread -/
  | starting
  /-- in the first loop of `run`, with these watches to go -/
  | adding (watchlist : List Bytes)
  /-- in `WaitForEvents` -/
  | waiting
  /-- with `count` events to handle before it waits again -/
  | handling (count : Nat)
  /-- the thread, or the program, has ended -/
  | stopped
  deriving DecidableEq

structure System where
  pc : Pc
  files : Inode → Directory
  kernel : Kernel
  path : PathMap
  watchlist : List Bytes
  notify : Inotify

inductive Action
  /-- another program changes a directory -/
  | op (ino : Inode) (op : DirOp)
  /-- the program takes its next step -/
  | prog
  /-- `WaitForEvents` returns with the first `count` events queued -/
  | read (count : Nat)

namespace System

/-- What `Glib::Dir` reads. -/
def readDir (s : System) (path : Bytes) : Option (List Bytes) :=
  (s.kernel.lookup path).map fun ino => (s.files ino).names

/-- The program at its start, with the directories that `PATH` names; `fd` is the descriptor its
thread will get. A `PATH` without directories ends the program. -/
def init (lookup : Bytes → Option Inode) (files : Inode → Directory) (dirs : List Bytes)
    (fd : Nat) : System where
  pc := if dirs = [] then .stopped else .listing dirs
  files := files
  kernel := ⟨lookup, [], []⟩
  path := ∅
  watchlist := []
  notify := Inotify.new fd

/-- The program's next step; `none` where it is blocked, has ended or is not defined. -/
def progStep (s : System) : Option System :=
  match s.pc with
  | .listing [] => some { s with pc := .starting }
  | .listing (d :: dirs) =>
    some { s with
      path := (updateDirectoryListing s.readDir s.path d).1
      pc := .monitoring d dirs }
  | .monitoring d dirs =>
    some { s with
      watchlist := (monitorDirectory s.readDir s.watchlist d).1
      pc := .listing dirs }
  -- `start`: what follows is done by the thread
  | .starting => some { s with pc := .adding s.watchlist }
  | .adding [] => some { s with pc := .waiting }
  | .adding (d :: watchlist) =>
    let (notify, kernel) := addWatch s.notify s.kernel d
    some { s with notify, kernel, pc := .adding watchlist }
  | .waiting => none
  | .handling 0 => some { s with pc := .waiting }
  -- an erase at no element ends what is defined of the program
  | .handling (count + 1) =>
    (Loop.next ⟨s.notify, s.path⟩).map fun loop =>
      { s with notify := loop.notify, path := loop.path, pc := .handling count }
  | .stopped => none

def step (s : System) : Action → Option System
  | .op ino op =>
    ((s.files ino).apply op).map fun D =>
      { s with files := Function.update s.files ino D, kernel := s.kernel.emit ino op }
  | .prog => s.progStep
  | .read count =>
    if s.pc = .waiting ∧ 0 < count ∧ count ≤ s.kernel.queue.length then
      match s.notify.waitForEvents (s.kernel.queue.take count) with
      | .ok notify =>
        some { s with
          notify
          kernel := { s.kernel with queue := s.kernel.queue.drop count }
          pc := .handling notify.events.length }
      | .error _ => some { s with pc := .stopped }
    else none

/-! ## What start-up has still to do -/

/-- The directories still to be listed. -/
def unlisted (s : System) : List Bytes :=
  match s.pc with
  | .listing dirs | .monitoring _ dirs => dirs
  | _ => []

/-- The directories still to be watched. -/
def unwatched (s : System) : List Bytes :=
  match s.pc with
  | .listing dirs => s.watchlist ++ dirs
  | .monitoring d dirs => s.watchlist ++ d :: dirs
  | .starting => s.watchlist
  | .adding watchlist => watchlist
  | _ => []

/-- The thread does not run yet. -/
def Early (s : System) : Prop :=
  match s.pc with
  | .listing _ | .monitoring _ _ | .starting => True
  | _ => False

/-- The thread has put its watches in place. -/
def Started (s : System) : Prop :=
  match s.pc with
  | .waiting | .handling _ => True
  | _ => False

end System

/-- The only operations are creations. -/
def Action.OnlyCreates : Action → Prop
  | .op _ change => change.kind = .create
  | _ => True

/-! ## Adding a watch -/

namespace Kernel

/-- The kernel with one more directory watched. -/
def watch (k : Kernel) (ino : Inode) : Kernel := { k with watched := k.watched ++ [ino] }

/-- A directory that is watched keeps its descriptor. -/
theorem wd_watch {k : Kernel} {ino : Inode} (h : ino ∈ k.watched) (ino' : Inode) :
    (k.watch ino').wd ino = k.wd ino := by
  rw [wd, wd, watch, List.idxOf_append_of_mem h]

theorem wd_injective {k : Kernel} {ino ino' : Inode} (h : ino ∈ k.watched)
    (heq : k.wd ino = k.wd ino') : ino = ino' := by
  unfold wd at heq
  exact (List.idxOf_inj h).mp (by omega)

theorem addWatch_of_watched {k : Kernel} {path : Bytes} {ino : Inode}
    (hlookup : k.lookup path = some ino) (h : ino ∈ k.watched) :
    k.addWatch path = (.ok (k.wd ino), k) := by
  simp [addWatch, hlookup, h]

theorem addWatch_of_not_watched {k : Kernel} {path : Bytes} {ino : Inode}
    (hlookup : k.lookup path = some ino) (h : ino ∉ k.watched) :
    k.addWatch path = (.ok ((k.watch ino).wd ino), k.watch ino) := by
  simp [addWatch, hlookup, h, watch]

end Kernel

namespace Inotify

/-- The wrapper with one more watch. -/
def withWatch (n : Inotify) (d : Bytes) (wd : Int) : Inotify :=
  { n with
    watches := n.watches.insertIfNew wd (pathWatch d wd)
    paths := n.paths.insertIfNew d (pathWatch d wd) }

end Inotify

/-- A watch is added for a directory that has none; a path that names no directory, or one that is
watched already, changes nothing. -/
theorem addWatch_cases {n : Inotify} {k : Kernel} (hfd : n.fd ≠ -1)
    (hwatches : ∀ wd w, n.watches[wd]? = some w →
      ∃ ino ∈ k.watched, k.lookup w.path = some ino ∧ wd = k.wd ino)
    (hwatched : ∀ ino ∈ k.watched, ∃ w, n.watches[k.wd ino]? = some w) (d : Bytes) :
    (addWatch n k d = (n, k) ∧
      (d ∈ n.paths ∨ ∀ ino, k.lookup d = some ino → ino ∈ k.watched)) ∨
    ∃ ino, k.lookup d = some ino ∧ ino ∉ k.watched ∧
      addWatch n k d = (n.withWatch d ((k.watch ino).wd ino), k.watch ino) := by
  unfold addWatch Inotify.add
  rw [if_neg hfd]
  by_cases hpath : d ∈ n.paths
  · left
    simp [InotifyWatch.new, hpath]
  cases hlookup : k.lookup d with
  | none =>
      left
      simp [InotifyWatch.new, hpath, Kernel.addWatch, hlookup]
  | some ino =>
      by_cases hino : ino ∈ k.watched
      · -- the descriptor the kernel returns has a watch already, on the same directory
        left
        obtain ⟨w, hw⟩ := hwatched ino hino
        obtain ⟨ino', hino', hlookup', -⟩ := hwatches _ w hw
        simp [InotifyWatch.new, hpath, Kernel.addWatch_of_watched hlookup hino, hw,
          Kernel.addWatch_of_watched hlookup' hino', hino]
      · right
        refine ⟨ino, rfl, hino, ?_⟩
        have hnew : n.watches[(k.watch ino).wd ino]? = none := by
          cases hw : n.watches[(k.watch ino).wd ino]? with
          | none => rfl
          | some w =>
              obtain ⟨ino', hino', -, hwd⟩ := hwatches _ w hw
              rw [← Kernel.wd_watch hino' ino] at hwd
              have := Kernel.wd_injective (by simp [Kernel.watch]) hwd
              exact absurd (this ▸ hino') hino
        simp [InotifyWatch.new, hpath, Kernel.addWatch_of_not_watched hlookup hino, hnew,
          Inotify.withWatch, pathWatch]

end TudorDo
