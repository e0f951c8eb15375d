import TudorDo.Directory

/-!
# `monitor.cpp`

`PathMonitor` keeps the listings of the `PATH` directories, `m_path`, by replaying what inotify
reports. `run` first puts a watch on every directory of the watch list and then handles events, one
after another, in the order they were queued.

A removal event erases the element *behind* the one that `find` found (`erasePos`): `run` advances
the iterator before it erases. At the last element, and for a name that is not listed, that iterator
is no element at all and the erase has no defined behaviour; here `none`.

`run_eq` says what is left of the loops of `run`: whatever buffers the events come in, the listings
are those of handling the delivered events in order.
-/

namespace TudorDo

open Lib

/-- `Do::t_path_map`. -/
abbrev PathMap := Std.ExtTreeMap Bytes (List Bytes)

namespace PathMap

/-- The listing under a key, empty where there is none: what `operator[]` refers to. -/
def listing (m : PathMap) (d : Bytes) : List Bytes := m.getD d []

theorem listing_insert (m : PathMap) (d d' : Bytes) (l : List Bytes) :
    listing (m.insert d l) d' = if d = d' then l else listing m d' := by
  simp only [listing, Std.ExtTreeMap.getD_insert, Std.LawfulEqCmp.compare_eq_iff_eq]

@[simp] theorem listing_insert_self (m : PathMap) (d : Bytes) (l : List Bytes) :
    listing (m.insert d l) d = l := by
  simp [listing_insert]

theorem listing_insert_of_ne (m : PathMap) {d d' : Bytes} (h : d ≠ d') (l : List Bytes) :
    listing (m.insert d l) d' = listing m d' := by
  simp [listing_insert, h]

end PathMap

namespace PathMonitor

/-! ## One event -/

/-- The position the erase of a removal event is given: one behind the first occurrence of the name,
and two behind the last element when there is none. -/
def erasePos (listing : List Bytes) (name : Bytes) : Nat := listing.idxOf name + 1

/-- The body of the event loop. -/
def handleEvent (m : PathMap) (event : InotifyEvent) : Option PathMap :=
  let directory := event.watch.path
  if isType event.mask inCreate || isType event.mask inMovedTo then
    some (m.insert directory (m.listing directory ++ [event.name]))
  else if isType event.mask inDelete || isType event.mask inMovedFrom then
    -- `erase(++find(..))`
    let pos := erasePos (m.listing directory) event.name
    if pos < (m.listing directory).length then
      some (m.insert directory ((m.listing directory).eraseIdx pos))
    else none
  else some m

/-- The event adds its name to a listing. -/
def Adds (event : InotifyEvent) : Prop :=
  (isType event.mask inCreate || isType event.mask inMovedTo) = true

/-- The event is to take its name out of a listing. -/
def Removes (event : InotifyEvent) : Prop :=
  ¬ Adds event ∧ (isType event.mask inDelete || isType event.mask inMovedFrom) = true

instance (event : InotifyEvent) : Decidable (Adds event) := inferInstanceAs (Decidable (_ = true))

instance (event : InotifyEvent) : Decidable (Removes event) :=
  inferInstanceAs (Decidable (¬ _ ∧ _ = true))

theorem handleEvent_of_adds {m : PathMap} {event : InotifyEvent} (h : Adds event) :
    handleEvent m event = some (m.insert event.watch.path
      (m.listing event.watch.path ++ [event.name])) := by
  unfold Adds at h
  simp [handleEvent, h]

theorem handleEvent_of_removes {m : PathMap} {event : InotifyEvent} (h : Removes event) :
    handleEvent m event =
      if erasePos (m.listing event.watch.path) event.name < (m.listing event.watch.path).length then
        some (m.insert event.watch.path ((m.listing event.watch.path).eraseIdx
          (erasePos (m.listing event.watch.path) event.name)))
      else none := by
  obtain ⟨hadds, hremoves⟩ := h
  unfold Adds at hadds
  simp only [handleEvent, if_neg hadds, if_pos hremoves]

theorem handleEvent_of_other {m : PathMap} {event : InotifyEvent} (hadds : ¬ Adds event)
    (hremoves : ¬ Removes event) : handleEvent m event = some m := by
  have h : ¬ (isType event.mask inDelete || isType event.mask inMovedFrom) = true :=
    fun h => hremoves ⟨hadds, h⟩
  unfold Adds at hadds
  simp only [handleEvent, if_neg hadds, if_neg h]

/-! ## What an erase does to a listing -/

/-- The element found is never the one erased. -/
theorem mem_eraseIdx_erasePos {l : List Bytes} {name : Bytes} (h : name ∈ l) :
    name ∈ l.eraseIdx (erasePos l name) := by
  have hlt : l.idxOf name < l.length := List.idxOf_lt_length_iff.mpr h
  refine List.mem_eraseIdx_iff_getElem.mpr ⟨l.idxOf name, hlt, ?_, List.getElem_idxOf hlt⟩
  exact Nat.ne_of_lt (Nat.lt_succ_self _)

theorem erasePos_append {a : List Bytes} {name : Bytes} (ha : name ∉ a) (b : List Bytes) :
    erasePos (a ++ name :: b) name = a.length + 1 := by
  rw [erasePos, List.idxOf_append_of_notMem ha, List.idxOf_cons_self, Nat.add_zero]

/-- The erase is given an element exactly where one stands behind the first occurrence of the name;
that element is the one given. -/
theorem getElem?_erasePos_eq_some {l : List Bytes} {name x : Bytes} :
    l[erasePos l name]? = some x ↔ ∃ a b, l = a ++ name :: x :: b ∧ name ∉ a := by
  constructor
  · intro h
    have hlt : l.idxOf name < l.length := by
      have := (List.getElem?_eq_some_iff.mp h).1
      unfold erasePos at this
      omega
    obtain ⟨a, b, rfl, ha⟩ := List.eq_append_cons_of_mem (List.idxOf_lt_length_iff.mp hlt)
    rw [erasePos_append ha, List.getElem?_append_right (by omega)] at h
    cases b with
    | nil => simp at h
    | cons y b => exact ⟨a, b, by simpa using h, ha⟩
  · rintro ⟨a, b, rfl, ha⟩
    rw [erasePos_append ha, List.getElem?_append_right (by omega)]
    simp

theorem erasePos_lt_iff {l : List Bytes} {name : Bytes} :
    erasePos l name < l.length ↔ ∃ a x b, l = a ++ name :: x :: b ∧ name ∉ a := by
  constructor
  · intro h
    obtain ⟨a, b, hl, ha⟩ := getElem?_erasePos_eq_some.mp (List.getElem?_eq_getElem h)
    exact ⟨a, _, b, hl, ha⟩
  · rintro ⟨a, x, b, hl, ha⟩
    exact (List.getElem?_eq_some_iff.mp (getElem?_erasePos_eq_some.mpr ⟨a, b, hl, ha⟩)).1

/-! ## Start-up

`readDir` is what `file_test(path, FILE_TEST_IS_DIR)` and `Glib::Dir` see: the names in the
directory that a path names, if it names one. -/

/-- `monitor_directory`, on the watch list; the result says whether the path was taken. -/
def monitorDirectory (readDir : Bytes → Option (List Bytes)) (watchlist : List Bytes)
    (path : Bytes) : List Bytes × Bool :=
  if (readDir path).isSome then (watchlist ++ [path], true) else (watchlist, false)

/-- `update_directory_listing`, which reports `false` whatever it did. -/
def updateDirectoryListing (readDir : Bytes → Option (List Bytes)) (m : PathMap)
    (path : Bytes) : PathMap × Bool :=
  match readDir path with
  | some listing => (m.insert path listing, false)
  | none => (m, false)

/-- The events `run` asks for. -/
abbrev watchMask : UInt32 := inCreate ||| inDelete ||| inMove

/-- One round of the first loop of `run`. The watch is enabled from the start, so `SetEnabled(true)`
returns at once, and what `Add` throws is dropped. -/
def addWatch (notify : Inotify) (k : Kernel) (path : Bytes) : Inotify × Kernel :=
  match notify.add k (InotifyWatch.new path watchMask) with
  | (.ok notify, k) => (notify, k)
  | (.error _, k) => (notify, k)

/-! ## The event loop -/

/-- Why the event loop ends before it is told to. -/
inductive Halt
  /-- an erase at no element -/
  | invalidErase
  /-- an exception of the wrapper, reported with `warning` -/
  | inotify (e : InotifyException)

/-- What the event loop works on. -/
structure Loop where
  notify : Inotify
  path : PathMap

namespace Loop

/-- Take one event off the queue and handle it. -/
def next (s : Loop) : Option Loop :=
  match s.notify.getEvent with
  | (none, notify) => some { s with notify }
  | (some event, notify) => (handleEvent s.path event).map fun path => ⟨notify, path⟩

/-- The inner loop, with `count` events to go. -/
def drain : Nat → Loop → Option Loop
  | 0, s => some s
  | count + 1, s => s.next.bind (drain count)

/-- One round of the event loop, with what `read` put into the buffer. -/
def round (s : Loop) (buf : List RawEvent) : Except Halt Loop :=
  match s.notify.waitForEvents buf with
  | .error e => .error (.inotify e)
  | .ok notify =>
    match drain notify.events.length { s with notify } with
    | some s => .ok s
    | none => .error .invalidErase

end Loop

/-- The event loop of `run`, for as many rounds as there are buffers. -/
def run (s : Loop) (bufs : List (List RawEvent)) : Except Halt Loop := bufs.foldlM Loop.round s

/-- What the loop comes to once its events are handled. -/
def Loop.finish (s : Loop) : Option PathMap → Except Halt Loop
  | some path => .ok { s with path }
  | none => .error .invalidErase

/-- Handle events in order. -/
def handleEvents (m : PathMap) (events : List InotifyEvent) : Option PathMap :=
  Lib.run handleEvent m events

theorem drain_eq (s : Loop) :
    s.drain s.notify.events.length =
      (handleEvents s.path s.notify.events).map fun path =>
        ⟨{ s.notify with events := [] }, path⟩ := by
  obtain ⟨⟨fd, watches, paths, events⟩, path⟩ := s
  induction events generalizing path with
  | nil => rfl
  | cons event events ih =>
      rw [List.length_cons, Loop.drain, Loop.next, handleEvents, Lib.run_cons]
      simp only [Inotify.getEvent]
      cases h : handleEvent path event with
      | none => rfl
      | some path' => exact ih path'

/-- However the events are cut into buffers, `run` handles those that are delivered, in order. -/
theorem run_eq {s : Loop} (hempty : s.notify.events = []) {bufs : List (List RawEvent)}
    (hkeep : ∀ evt ∈ bufs.flatten, s.notify.KeepsWatch evt) :
    run s bufs = s.finish (handleEvents s.path (bufs.flatten.filterMap s.notify.deliver)) := by
  -- between two buffers no event is waiting, so each round starts as the first one did
  induction bufs generalizing s with
  | nil => rfl
  | cons buf bufs ih =>
      have hbuf : ∀ evt ∈ buf, s.notify.KeepsWatch evt := fun evt he => hkeep evt (by simp [he])
      have hrest : ∀ evt ∈ bufs.flatten, s.notify.KeepsWatch evt := fun evt he =>
        hkeep evt (by simp [List.mem_flatten.mp he])
      have hdrain := drain_eq { s with notify := { s.notify with
        events := s.notify.events ++ buf.filterMap s.notify.deliver } }
      rw [run, List.foldlM_cons, Loop.round, Inotify.waitForEvents_eq hbuf]
      simp only [hempty, List.nil_append] at hdrain ⊢
      rw [hdrain, List.flatten_cons, List.filterMap_append, handleEvents, handleEvents,
        Lib.run_append]
      cases h : Lib.run handleEvent s.path (buf.filterMap s.notify.deliver) with
      | none => rfl
      | some path =>
          have hnotify : { s.notify with events := [] } = s.notify := by rw [← hempty]
          simp only [Option.map_some, hnotify, Option.bind_some]
          exact ih (s := ⟨s.notify, path⟩) hempty hrest

end PathMonitor

end TudorDo
