import Std.Data.ExtTreeMap
import TudorDo.Lib.Ascii

/-!
# The inotify wrapper, and the kernel below it

`inotify-cxx.cpp` keeps two maps of watches, by descriptor and by path, and a queue of events. What
it asks the kernel for is small: a descriptor for a directory (`Kernel.addWatch`, the same one for
the same directory whatever path it was named by), and the events queued so far, which
`waitForEvents` takes a buffer of.

Pointers to watches are the watches themselves here: the path of a watch, all that `run` reads of
it, never changes.
-/

namespace TudorDo

open Lib

/-! ## Events and watches -/

abbrev inMovedFrom : UInt32 := 0x40
abbrev inMovedTo : UInt32 := 0x80
abbrev inCreate : UInt32 := 0x100
abbrev inDelete : UInt32 := 0x200
/-- `IN_MOVED_FROM | IN_MOVED_TO` -/
abbrev inMove : UInt32 := inMovedFrom ||| inMovedTo
abbrev inIgnored : UInt32 := 0x8000
abbrev inIsdir : UInt32 := 0x40000000
abbrev inOneshot : UInt32 := 0x80000000

abbrev ebusy : Int := 16
abbrev einval : Int := 22
abbrev enoent : Int := 2

/-- `InotifyEvent::IsType(uValue, uType)`. -/
def isType (value type : UInt32) : Bool := value &&& type != 0 && ~~~value &&& type == 0

/-- An event as the kernel queues it, `struct inotify_event`. -/
structure RawEvent where
  wd : Int
  mask : UInt32
  cookie : UInt32
  name : Bytes
  deriving DecidableEq

structure InotifyWatch where
  path : Bytes
  mask : UInt32
  wd : Int
  enabled : Bool
  deriving DecidableEq

/-- `InotifyWatch::InotifyWatch(rPath, uMask)`: enabled, and without a descriptor yet. -/
def InotifyWatch.new (path : Bytes) (mask : UInt32) : InotifyWatch := ⟨path, mask, -1, true⟩

structure InotifyEvent where
  mask : UInt32
  cookie : UInt32
  name : Bytes
  watch : InotifyWatch
  deriving DecidableEq

/-- The message of an exception, without the name of the function that `IN_EXC_MSG` puts in front,
and its error number. -/
structure InotifyException where
  msg : String
  err : Int
  deriving DecidableEq

/-! ## The kernel -/

abbrev Inode := Nat

/-- The part of the kernel the program talks to. A directory that has a watch keeps the descriptor
it got, its place in `watched`; all watches of the program ask for the same events. -/
structure Kernel where
  /-- the directory a path names, symbolic links followed -/
  lookup : Bytes → Option Inode
  watched : List Inode
  queue : List RawEvent

/-- The descriptor of a watched directory. -/
def Kernel.wd (k : Kernel) (ino : Inode) : Int := k.watched.idxOf ino + 1

/-- `inotify_add_watch`: a descriptor, or an error number. -/
def Kernel.addWatch (k : Kernel) (path : Bytes) : Except Int Int × Kernel :=
  match k.lookup path with
  | none => (.error enoent, k)
  | some ino =>
    if ino ∈ k.watched then (.ok (k.wd ino), k)
    else
      let k := { k with watched := k.watched ++ [ino] }
      (.ok (k.wd ino), k)

/-! ## The wrapper -/

structure Inotify where
  fd : Int
  watches : Std.ExtTreeMap Int InotifyWatch
  paths : Std.ExtTreeMap Bytes InotifyWatch
  events : List InotifyEvent

/-- `Inotify::Inotify()`, once the kernel has given the file descriptor. -/
def Inotify.new (fd : Int) : Inotify := ⟨fd, ∅, ∅, []⟩

namespace Inotify

/-- `Inotify::Add`. What it throws leaves the wrapper as it was, but the kernel has been asked. -/
def add (n : Inotify) (k : Kernel) (w : InotifyWatch) : Except InotifyException Inotify × Kernel :=
  if n.fd = -1 then (.error ⟨"invalid file descriptor", ebusy⟩, k)
  else if w.path ∈ n.paths then (.error ⟨"path already watched", ebusy⟩, k)
  else if w.enabled then
    match k.addWatch w.path with
    | (.error err, k) => (.error ⟨"adding watch failed", err⟩, k)
    | (.ok wd, k) =>
      match n.watches[wd]? with
      | some pW =>
        -- the collision may have modified the old watch, so it is asked for again
        match k.addWatch pW.path with
        | (.error err, k) => (.error ⟨"watch collision detected and recovery failed", err⟩, k)
        | (.ok _, k) => (.error ⟨"path already watched (but defined another way)", ebusy⟩, k)
      | none =>
        let w := { w with wd := wd }
        (.ok { n with watches := n.watches.insertIfNew wd w, paths := n.paths.insertIfNew w.path w },
          k)
  else (.ok { n with paths := n.paths.insertIfNew w.path w }, k)

/-- `InotifyWatch::__Disable`, for a watch that belongs to `n`. -/
def disable (n : Inotify) (w : InotifyWatch) : Except InotifyException Inotify :=
  if w.enabled then
    .ok { n with
      watches := n.watches.erase w.wd
      paths := n.paths.insert w.path { w with wd := -1, enabled := false } }
  else .error ⟨"event cannot occur on disabled watch", einval⟩

/-- One round of the loop of `Inotify::WaitForEvents`: an event whose descriptor is not known is
dropped. -/
def receive (n : Inotify) (evt : RawEvent) : Except InotifyException Inotify :=
  match n.watches[evt.wd]? with
  | none => .ok n
  | some pW => do
    let n ← if isType pW.mask inOneshot || isType evt.mask inIgnored then n.disable pW else .ok n
    .ok { n with events := n.events ++ [⟨evt.mask, evt.cookie, evt.name, pW⟩] }

/-- `Inotify::WaitForEvents`, with what `read` put into the buffer. -/
def waitForEvents (n : Inotify) (buf : List RawEvent) : Except InotifyException Inotify :=
  buf.foldlM receive n

/-- `Inotify::GetEvent`: the event got, if any, and what is left. -/
def getEvent (n : Inotify) : Option InotifyEvent × Inotify :=
  match n.events with
  | [] => (none, n)
  | evt :: events => (some evt, { n with events := events })

/-! ## Receiving events -/

/-- The event a queued event becomes, if its descriptor is known. -/
def deliver (n : Inotify) (evt : RawEvent) : Option InotifyEvent :=
  n.watches[evt.wd]?.map fun w => ⟨evt.mask, evt.cookie, evt.name, w⟩

/-- `evt` switches no watch off: it says nothing of the watch itself and the watch is no one-shot. -/
def KeepsWatch (n : Inotify) (evt : RawEvent) : Prop :=
  isType evt.mask inIgnored = false ∧
    ∀ w, n.watches[evt.wd]? = some w → isType w.mask inOneshot = false

theorem receive_eq {n : Inotify} {evt : RawEvent} (h : n.KeepsWatch evt) :
    n.receive evt = .ok { n with events := n.events ++ (n.deliver evt).toList } := by
  unfold receive deliver
  cases hw : n.watches[evt.wd]? with
  | none => simp
  | some w => simp [h.1, h.2 w hw, bind, Except.bind]

/-- A buffer of such events is queued in the order of the buffer; the watches stay. -/
theorem waitForEvents_eq {n : Inotify} {buf : List RawEvent} (h : ∀ evt ∈ buf, n.KeepsWatch evt) :
    n.waitForEvents buf = .ok { n with events := n.events ++ buf.filterMap n.deliver } := by
  induction buf generalizing n with
  | nil => simp [waitForEvents, pure, Except.pure]
  | cons evt buf ih =>
      have hrest := ih (n := { n with events := n.events ++ (n.deliver evt).toList })
        fun e he => h e (by simp [he])
      unfold waitForEvents at hrest ⊢
      rw [List.foldlM_cons, receive_eq (h evt (by simp))]
      apply hrest.trans
      show Except.ok { n with
        events := n.events ++ (n.deliver evt).toList ++ buf.filterMap n.deliver } = _
      cases hd : n.deliver evt <;> simp [hd]

end Inotify

end TudorDo
