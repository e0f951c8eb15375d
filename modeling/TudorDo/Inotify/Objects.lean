import Mathlib.Logic.Function.Basic
import TudorDo.Inotify
import TudorDo.Lib.Run

/-!
# The inotify wrapper with its watch objects

What `inotify-cxx.cpp` does with watches, in full: they are objects of the client, the two maps hold
pointers to them, and a watch is added, removed, switched off and on and given another mask through
them. `Instance` is the kernel's side of the file descriptor: what `inotify_add_watch` finds for a
path and a mask, errors included, may be different at any time, descriptors are given out once, and a
mark goes away by `inotify_rm_watch`, with its file or, for a one-shot, with its first event; then
`IN_IGNORED` is queued for it.

A call that throws leaves the state it throws in: the result stands beside the state. A call whose
behaviour is not defined is `none`. Watch objects live as long as the wrapper.
-/

namespace TudorDo.Objects

open Lib

abbrev ebadf : Int := 9
abbrev inQOverflow : UInt32 := 0x4000
abbrev inMaskAdd : UInt32 := 0x20000000

/-! ## The kernel's side -/

structure Mark where
  wd : Int
  ino : Inode
  mask : UInt32
  deriving DecidableEq

structure Instance where
  resolve : Bytes → UInt32 → Except Int Inode
  marks : List Mark
  /-- the next descriptor -/
  next : Int
  queue : List RawEvent

namespace Instance

def ignored (wd : Int) : RawEvent := ⟨wd, inIgnored, 0, []⟩

/-- `inotify_add_watch`: a file that has a mark keeps it and its descriptor, with the new mask. -/
def addWatch (k : Instance) (path : Bytes) (mask : UInt32) : Except Int Int × Instance :=
  match k.resolve path mask with
  | .error err => (.error err, k)
  | .ok ino =>
    match k.marks.find? (·.ino = ino) with
    | some m =>
      let mask := if isType mask inMaskAdd then m.mask ||| mask else mask
      (.ok m.wd, { k with marks := k.marks.map fun m' => if m'.wd = m.wd then { m' with mask } else m' })
    | none =>
      (.ok k.next, { k with marks := k.marks ++ [⟨k.next, ino, mask⟩], next := k.next + 1 })

/-- The mark goes away. -/
def unmark (k : Instance) (wd : Int) : Instance :=
  { k with marks := k.marks.filter (·.wd ≠ wd), queue := k.queue ++ [ignored wd] }

/-- There is a mark with this descriptor. -/
def Live (k : Instance) (wd : Int) : Prop := ∃ m ∈ k.marks, m.wd = wd

instance (k : Instance) (wd : Int) : Decidable (k.Live wd) :=
  inferInstanceAs (Decidable (∃ m ∈ k.marks, m.wd = wd))

/-- `inotify_rm_watch`. -/
def rmWatch (k : Instance) (wd : Int) : Except Int Unit × Instance :=
  if k.Live wd then (.ok (), k.unmark wd) else (.error einval, k)

/-- Something happens to a marked file. -/
def fire (k : Instance) (m : Mark) (evt : RawEvent) : Instance :=
  let k := { k with queue := k.queue ++ [evt] }
  if isType m.mask inOneshot then k.unmark m.wd else k

end Instance

/-! ## The objects -/

abbrev Ptr := Nat

/-- `m_pInotify`, which the constructor of a watch does not set. -/
inductive Owner
  | unset
  | null
  | inotify
  deriving DecidableEq

/-- `InotifyWatch`. -/
structure Watch where
  path : Bytes
  mask : UInt32
  wd : Int
  owner : Owner
  enabled : Bool
  deriving DecidableEq

/-- `InotifyWatch::InotifyWatch(rPath, uMask, fEnabled)`. -/
def Watch.new (path : Bytes) (mask : UInt32) (enabled : Bool) : Watch :=
  ⟨path, mask, -1, .unset, enabled⟩

/-- `InotifyEvent`, with the pointer to its watch. -/
structure Event where
  mask : UInt32
  cookie : UInt32
  name : Bytes
  watch : Ptr
  deriving DecidableEq

/-- `Inotify`, the watch objects and the kernel. -/
structure State where
  fd : Int
  watches : Std.ExtTreeMap Int Ptr
  paths : Std.ExtTreeMap Bytes Ptr
  events : List Event
  heap : Ptr → Watch
  kernel : Instance

/-- What a call returns or throws, and the state it leaves. -/
abbrev Outcome := Except InotifyException Unit × State

namespace State

def throwing (s : State) (msg : String) (err : Int) : Outcome := (.error ⟨msg, err⟩, s)

def modify (s : State) (p : Ptr) (f : Watch → Watch) : State :=
  { s with heap := Function.update s.heap p (f (s.heap p)) }

/-- `inotify_add_watch` on `m_fd`. -/
def inotifyAddWatch (s : State) (path : Bytes) (mask : UInt32) : Except Int Int × State :=
  if s.fd = -1 then (.error ebadf, s)
  else ((s.kernel.addWatch path mask).1, { s with kernel := (s.kernel.addWatch path mask).2 })

/-- `inotify_rm_watch` on `m_fd`. -/
def inotifyRmWatch (s : State) (wd : Int) : Except Int Unit × State :=
  if s.fd = -1 then (.error ebadf, s)
  else ((s.kernel.rmWatch wd).1, { s with kernel := (s.kernel.rmWatch wd).2 })

/-! ## `InotifyWatch` -/

/-- `InotifyWatch::SetMask`; `m_pInotify` is followed where there is a descriptor. -/
def setMask (s : State) (p : Ptr) (mask : UInt32) : Option Outcome :=
  let w := s.heap p
  let done (s : State) : Outcome := (.ok (), s.modify p fun w => { w with mask })
  if w.wd ≠ -1 then
    match w.owner with
    | .inotify =>
      match s.inotifyAddWatch w.path mask with
      | (.error err, s) => some (s.throwing "changing mask failed" err)
      | (.ok wd, s) => some (if wd ≠ w.wd then s.throwing "changing mask failed" einval else done s)
    | _ => none
  else some (done s)

/-- `InotifyWatch::SetEnabled`. -/
def setEnabled (s : State) (p : Ptr) (enabled : Bool) : Option Outcome :=
  let w := s.heap p
  if enabled = w.enabled then some (.ok (), s)
  else
    match w.owner with
    | .unset => none
    | .null => some (.ok (), s.modify p fun w => { w with enabled })
    | .inotify =>
      if enabled then
        match s.inotifyAddWatch w.path w.mask with
        | (.error err, s) =>
          some ((s.modify p fun w => { w with wd := -1 }).throwing "enabling watch failed" err)
        | (.ok wd, s) =>
          let s := s.modify p fun w => { w with wd, enabled }
          some (.ok (), { s with watches := s.watches.insertIfNew wd p })
      else
        match s.inotifyRmWatch w.wd with
        | (.error err, s) => some (s.throwing "disabling watch failed" err)
        | (.ok _, s) =>
          let s := { s with watches := s.watches.erase w.wd }
          some (.ok (), s.modify p fun w => { w with wd := -1, enabled })

/-- `InotifyWatch::__Disable`. -/
def disable (s : State) (p : Ptr) : Option Outcome :=
  let w := s.heap p
  if w.enabled then
    match w.owner with
    | .unset => none
    | .null => some (.ok (), s.modify p fun w => { w with enabled := false })
    | .inotify =>
      let s := { s with watches := s.watches.erase w.wd }
      some (.ok (), s.modify p fun w => { w with wd := -1, enabled := false })
  else some (s.throwing "event cannot occur on disabled watch" einval)

/-! ## `Inotify` -/

/-- The end of `Add`. -/
def attach (s : State) (p : Ptr) : State :=
  { s.modify p fun w => { w with owner := .inotify } with
    paths := s.paths.insertIfNew (s.heap p).path p }

/-- The end of `Remove`. -/
def detach (s : State) (p : Ptr) : State :=
  { s.modify p fun w => { w with owner := .null } with paths := s.paths.erase (s.heap p).path }

/-- `Inotify::Add`. -/
def add (s : State) (p : Ptr) : Outcome :=
  let w := s.heap p
  if s.fd = -1 then s.throwing "invalid file descriptor" ebusy
  else if w.path ∈ s.paths then s.throwing "path already watched" ebusy
  else if w.enabled then
    match s.inotifyAddWatch w.path w.mask with
    | (.error err, s) => s.throwing "adding watch failed" err
    | (.ok wd, s) =>
      match s.watches[wd]? with
      | some q =>
        -- the collision may have modified the old watch, so it is asked for again
        match s.inotifyAddWatch (s.heap q).path (s.heap q).mask with
        | (.error err, s) => s.throwing "watch collision detected and recovery failed" err
        | (.ok _, s) => s.throwing "path already watched (but defined another way)" ebusy
      | none =>
        let s := s.modify p fun w => { w with wd }
        (.ok (), attach { s with watches := s.watches.insertIfNew wd p } p)
  else (.ok (), s.attach p)

/-- `Inotify::Remove`. -/
def remove (s : State) (p : Ptr) : Outcome :=
  let w := s.heap p
  if s.fd = -1 then s.throwing "invalid file descriptor" ebusy
  else if w.wd ≠ -1 then
    match s.inotifyRmWatch w.wd with
    | (.error err, s) => s.throwing "removing watch failed" err
    | (.ok _, s) =>
      let s := { s with watches := s.watches.erase w.wd }
      (.ok (), (s.modify p fun w => { w with wd := -1 }).detach p)
  else (.ok (), s.detach p)

/-- One round of the loop of `Inotify::RemoveAll`, which drops what `inotify_rm_watch` returns. -/
def release (s : State) (p : Ptr) : State :=
  if (s.heap p).wd ≠ -1 then
    (s.inotifyRmWatch (s.heap p).wd).2.modify p fun w => { w with wd := -1, owner := .null }
  else s.modify p fun w => { w with owner := .null }

/-- `Inotify::RemoveAll`. -/
def removeAll (s : State) : State :=
  { (s.paths.toList.map Prod.snd).foldl release s with watches := ∅, paths := ∅ }

/-- `Inotify::Close`. -/
def close (s : State) : State :=
  if s.fd = -1 then s
  else
    let s := s.removeAll
    { s with fd := -1, kernel := { s.kernel with marks := [], queue := [] } }

/-- `m_events.push_back`. -/
def push (s : State) (event : Event) : State := { s with events := s.events ++ [event] }

/-- One round of the loop of `Inotify::WaitForEvents`. -/
def receive (s : State) (evt : RawEvent) : Option Outcome :=
  match s.watches[evt.wd]? with
  | none => some (.ok (), s)
  | some p =>
    let event : Event := ⟨evt.mask, evt.cookie, evt.name, p⟩
    if isType (s.heap p).mask inOneshot || isType evt.mask inIgnored then
      (s.disable p).map fun outcome =>
        match outcome with
        | (.ok _, s) => (.ok (), s.push event)
        | (.error e, s) => (.error e, s)
    else some (.ok (), s.push event)

/-- The loop, which an exception ends with the rest of the buffer unread. -/
def receiveAll (s : State) : List RawEvent → Option Outcome
  | [] => some (.ok (), s)
  | evt :: buf =>
    (s.receive evt).bind fun outcome =>
      match outcome with
      | (.ok _, s) => s.receiveAll buf
      | (.error e, s) => some (.error e, s)

/-- `Inotify::WaitForEvents`, where `read` returns the first `count` events. -/
def waitForEvents (s : State) (count : Nat) : Option Outcome :=
  if s.fd = -1 then some (s.throwing "reading events failed" ebadf)
  else
    receiveAll { s with kernel := { s.kernel with queue := s.kernel.queue.drop count } }
      (s.kernel.queue.take count)

/-- `Inotify::GetEvent`: the event got, if any, and what is left. -/
def getEvent (s : State) : Option Event × State :=
  match s.events with
  | [] => (none, s)
  | event :: events => (some event, { s with events })

end State

/-! ## Steps -/

/-- A call of the client, or something that happens in the kernel. -/
inductive Call
  | add (p : Ptr)
  | remove (p : Ptr)
  | removeAll
  | close
  | setEnabled (p : Ptr) (enabled : Bool)
  | setMask (p : Ptr) (mask : UInt32)
  | waitForEvents (count : Nat)
  | getEvent
  /-- an event of a marked file -/
  | fire (m : Mark) (evt : RawEvent)
  /-- a marked file is deleted or unmounted -/
  | vanish (wd : Int)
  /-- the kernel's queue is full -/
  | overflow
  /-- paths name other files, or files that can be watched no more -/
  | relink (resolve : Bytes → UInt32 → Except Int Inode)

/-- What a call returns or throws, and the state it leaves. -/
def State.perform (s : State) : Call → Option Outcome
  | .add p => some (s.add p)
  | .remove p => some (s.remove p)
  | .removeAll => some (.ok (), s.removeAll)
  | .close => some (.ok (), s.close)
  | .setEnabled p enabled => s.setEnabled p enabled
  | .setMask p mask => s.setMask p mask
  | .waitForEvents count => s.waitForEvents count
  | .getEvent => some (.ok (), s.getEvent.2)
  | .fire m evt =>
    if m ∈ s.kernel.marks ∧ evt.wd = m.wd ∧ isType evt.mask inIgnored = false then
      some (.ok (), { s with kernel := s.kernel.fire m evt })
    else none
  | .vanish wd =>
    if s.kernel.Live wd then some (.ok (), { s with kernel := s.kernel.unmark wd }) else none
  | .overflow =>
    if s.fd = -1 then none
    else
      some (.ok (), { s with
        kernel := { s.kernel with queue := s.kernel.queue ++ [⟨-1, inQOverflow, 0, []⟩] } })
  | .relink resolve => some (.ok (), { s with kernel := { s.kernel with resolve } })

/-- The next state; the client catches what a call throws. -/
def State.step (s : State) (call : Call) : Option State := (s.perform call).map Prod.snd

/-- The wrapper at its start, with the watch objects of the client. -/
def State.init (fd : Nat) (resolve : Bytes → UInt32 → Except Int Inode)
    (objects : Ptr → Bytes × UInt32 × Bool) : State where
  fd := fd
  watches := ∅
  paths := ∅
  events := []
  heap := fun p => Watch.new (objects p).1 (objects p).2.1 (objects p).2.2
  kernel := ⟨resolve, [], 1, []⟩

end TudorDo.Objects
