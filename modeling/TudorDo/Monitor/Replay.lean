import TudorDo.Monitor

/-!
# Replaying the events of one directory

A directory `d` is watched under the descriptor `wd` and key `d`. Each operation on it queues one
event, and the events are handled in order; `replayStep` takes the directory and the listings
through both at once.

* `listing_inStep_iff` — the listing of `d` has the names of `d` after each operation exactly when
  no operation takes a name out of `d`: what a removal event erases is never the name it is about.
* `erases_safe_iff` — the erases of a run of events hit the name they are for exactly when that name
  is always listed twice in a row.
-/

namespace TudorDo.PathMonitor

open Lib

/-- The watch `run` has put on `d`. -/
def pathWatch (d : Bytes) (wd : Int) : InotifyWatch := { InotifyWatch.new d watchMask with wd := wd }

/-- The event of an operation, once it is delivered to the watch on `d`. -/
def opEvent (d : Bytes) (wd : Int) (op : DirOp) : InotifyEvent :=
  ⟨op.kind.mask op.isDir, op.cookie, op.name, pathWatch d wd⟩

section Watched

variable {d : Bytes} {wd : Int}

theorem adds_opEvent {op : DirOp} : Adds (opEvent d wd op) ↔ ¬ op.Removes := by
  unfold Adds opEvent DirOp.Removes
  rw [OpKind.isType_mask_adds]
  simp

theorem removes_opEvent {op : DirOp} : Removes (opEvent d wd op) ↔ op.Removes := by
  rw [Removes, adds_opEvent]
  unfold opEvent DirOp.Removes
  rw [OpKind.isType_mask_removes]
  simp

/-- What the kernel queues for the operations on `d` is delivered to its watch. -/
theorem filterMap_deliver {n : Inotify} (hwatch : n.watches[wd]? = some (pathWatch d wd))
    (ops : List DirOp) :
    (ops.map (DirOp.event wd)).filterMap n.deliver = ops.map (opEvent d wd) := by
  rw [List.filterMap_map]
  have hdeliver : n.deliver ∘ DirOp.event wd = some ∘ opEvent d wd := by
    funext op
    simp [Inotify.deliver, DirOp.event, opEvent, hwatch]
  rw [hdeliver, List.filterMap_eq_map]

theorem keepsWatch_event {n : Inotify} (hwatch : n.watches[wd]? = some (pathWatch d wd))
    (op : DirOp) : n.KeepsWatch (op.event wd) := by
  refine ⟨OpKind.isType_mask_ignored _ _, fun w hw => ?_⟩
  obtain rfl : pathWatch d wd = w := Option.some.inj (hwatch.symm.trans hw)
  show isType watchMask inOneshot = false
  decide

/-- The event loop over the events of `ops`, in whatever buffers they come. -/
theorem run_events {s : Loop} (hwatch : s.notify.watches[wd]? = some (pathWatch d wd))
    (hempty : s.notify.events = []) {ops : List DirOp} {bufs : List (List RawEvent)}
    (hbufs : bufs.flatten = ops.map (DirOp.event wd)) :
    run s bufs = s.finish (handleEvents s.path (ops.map (opEvent d wd))) := by
  have hkeep : ∀ evt ∈ bufs.flatten, s.notify.KeepsWatch evt := by
    intro evt he
    rw [hbufs] at he
    obtain ⟨op, -, rfl⟩ := List.mem_map.mp he
    exact keepsWatch_event hwatch op
  rw [run_eq hempty hkeep, hbufs, filterMap_deliver hwatch]

/-! ## The directory and its listing side by side -/

variable (d wd) in
/-- One operation: on the directory, and by its event on the listings. -/
def replayStep (s : Directory × PathMap) (op : DirOp) : Option (Directory × PathMap) :=
  (s.1.apply op).bind fun D => (handleEvent s.2 (opEvent d wd op)).map fun m => (D, m)

theorem replayStep_eq_some {D D' : Directory} {m m' : PathMap} {op : DirOp} :
    replayStep d wd (D, m) op = some (D', m') ↔
      D.apply op = some D' ∧ handleEvent m (opEvent d wd op) = some m' := by
  unfold replayStep
  cases hD : D.apply op with
  | none => simp
  | some D₁ =>
      cases hm : handleEvent m (opEvent d wd op) with
      | none => simp
      | some m₁ => simp

theorem run_replayStep {D D' : Directory} {m m' : PathMap} {ops : List DirOp} :
    Lib.run (replayStep d wd) (D, m) ops = some (D', m') ↔
      D.applyAll ops = some D' ∧ handleEvents m (ops.map (opEvent d wd)) = some m' := by
  unfold Directory.applyAll handleEvents
  induction ops generalizing D m with
  | nil => simp
  | cons op ops ih =>
      simp only [run_cons, List.map_cons, Option.bind_eq_some_iff]
      constructor
      · rintro ⟨⟨D₁, m₁⟩, hstep, hrest⟩
        obtain ⟨hD, hm⟩ := replayStep_eq_some.mp hstep
        obtain ⟨hD', hm'⟩ := ih.mp hrest
        exact ⟨⟨D₁, hD, hD'⟩, m₁, hm, hm'⟩
      · rintro ⟨⟨D₁, hD, hD'⟩, m₁, hm, hm'⟩
        exact ⟨(D₁, m₁), replayStep_eq_some.mpr ⟨hD, hm⟩, ih.mpr ⟨hD', hm'⟩⟩

/-- Where a whole sequence of operations is possible, the run of the pairs comes to no operation that
is not. -/
theorem isSome_apply_of_run {D : Directory} {m : PathMap} {ops : List DirOp}
    (hops : (D.applyAll ops).isSome) {pre : List DirOp} {op : DirOp} (hpre : pre ++ [op] <+: ops)
    {s : Directory × PathMap} (hrun : Lib.run (replayStep d wd) (D, m) pre = some s) :
    (s.1.apply op).isSome := by
  obtain ⟨post, rfl⟩ := hpre
  have hD := (run_replayStep.mp hrun).1
  unfold Directory.applyAll at hops hD
  rw [run_append, run_append, hD] at hops
  cases hop : s.1.apply op with
  | none => simp [hop] at hops
  | some D' => rfl

variable (d) in
/-- The listing of `d` has the names of the directory. -/
def InStep (s : Directory × PathMap) : Prop := ∀ n, n ∈ s.2.listing d ↔ n ∈ s.1.names

variable (wd) in
/-- One operation that is possible keeps the two in step exactly when it takes no name out. -/
theorem inStep_step_iff {D D' : Directory} {m : PathMap} {op : DirOp} (hstep : InStep d (D, m))
    (hop : D.apply op = some D') :
    (∃ s', replayStep d wd (D, m) op = some s' ∧ InStep d s') ↔ ¬ op.Removes := by
  constructor
  · rintro ⟨⟨D₁, m'⟩, hs', hin⟩ hremoves
    obtain ⟨hD, hm⟩ := replayStep_eq_some.mp hs'
    have hmem : op.name ∈ m.listing d :=
      (hstep op.name).mpr (Directory.apply_of_removes hD hremoves).1
    rw [handleEvent_of_removes (removes_opEvent.mpr hremoves), Option.ite_none_right_eq_some,
      Option.some.injEq] at hm
    -- the name is still listed, but it is gone from the directory
    have hstays : op.name ∈ m'.listing d := by
      rw [← hm.2]
      show op.name ∈ PathMap.listing (m.insert d _) d
      rw [PathMap.listing_insert_self]
      exact mem_eraseIdx_erasePos hmem
    exact Directory.not_mem_apply_of_removes hD hremoves ((hin op.name).mp hstays)
  · intro hkeeps
    refine ⟨(D', m.insert d (m.listing d ++ [op.name])), ?_, fun n => ?_⟩
    · exact replayStep_eq_some.mpr ⟨hop, handleEvent_of_adds (adds_opEvent.mpr hkeeps)⟩
    · show n ∈ PathMap.listing (m.insert d _) d ↔ n ∈ D'.names
      rw [PathMap.listing_insert_self, Directory.mem_apply_of_not_removes hop hkeeps,
        List.mem_append, List.mem_singleton, hstep n]

variable (wd) in
/-- The two are in step throughout exactly when no operation takes a name out. -/
theorem throughout_inStep_iff {D : Directory} {m : PathMap} (hinit : InStep d (D, m))
    {ops : List DirOp} (hops : (D.applyAll ops).isSome) :
    Throughout (replayStep d wd) (InStep d) (D, m) ops ↔ ∀ op ∈ ops, ¬ op.Removes := by
  have hstep : ∀ s op, InStep d s → ((∃ s', replayStep d wd s op = some s' ∧ InStep d s') ↔
      (s.1.apply op).isSome ∧ ¬ op.Removes) := by
    rintro ⟨D₁, m₁⟩ op hin
    cases hD : D₁.apply op with
    | none => simp [replayStep, hD]
    | some D₂ => simpa [hD] using inStep_step_iff wd hin hD
  rw [throughout_iff_eachStep hstep hinit]
  constructor
  · intro h
    refine h.forall_mem (fun s op hP => hP.2) fun s op hP => ?_
    obtain ⟨D', hD'⟩ := Option.isSome_iff_exists.mp hP.1
    exact ⟨_, replayStep_eq_some.mpr ⟨hD', handleEvent_of_adds (adds_opEvent.mpr hP.2)⟩⟩
  · intro h pre op hpre s hrun
    exact ⟨isSome_apply_of_run hops hpre hrun, h op (hpre.mem (by simp))⟩

/-- What `run` makes of the events of `ops`, stopped after any of them and in whatever buffers they
come, is what replaying the operations one by one comes to. -/
theorem forall_run_iff {s : Loop} (hwatch : s.notify.watches[wd]? = some (pathWatch d wd))
    (hempty : s.notify.events = []) (Good : Directory → PathMap → Prop) {D : Directory}
    {ops : List DirOp} :
    (∀ pre, pre <+: ops → ∀ bufs, bufs.flatten = pre.map (DirOp.event wd) →
      ∃ D' s', D.applyAll pre = some D' ∧ run s bufs = .ok s' ∧ Good D' s'.path) ↔
      Throughout (replayStep d wd) (fun p => Good p.1 p.2) (D, s.path) ops := by
  constructor
  · -- one buffer with all the events is one of the ways to cut them
    intro h pre hpre
    obtain ⟨D', s', hD', hrun, hgood⟩ := h pre hpre [pre.map (DirOp.event wd)] (by simp)
    rw [run_events hwatch hempty List.flatten_singleton] at hrun
    cases hm : handleEvents s.path (pre.map (opEvent d wd)) with
    | none => simp [hm, Loop.finish] at hrun
    | some m' =>
        obtain rfl : { s with path := m' } = s' := by simpa [hm, Loop.finish] using hrun
        exact ⟨(D', m'), run_replayStep.mpr ⟨hD', hm⟩, hgood⟩
  · intro h pre hpre bufs hbufs
    obtain ⟨⟨D', m'⟩, hrun, hgood⟩ := h pre hpre
    obtain ⟨hD', hm⟩ := run_replayStep.mp hrun
    refine ⟨D', { s with path := m' }, hD', ?_, hgood⟩
    rw [run_events hwatch hempty hbufs, hm, Loop.finish]

end Watched

/-- **The listing of a directory.** Let `d` be watched, with every name in it listed exactly once
and no event waiting. Through every sequence of operations possible in `d`, in whatever buffers
their events come, the listing has the names of `d` after each of them if and only if no operation
takes a name out of `d`. -/
theorem listing_inStep_iff {s : Loop} {d : Bytes} {wd : Int}
    (hwatch : s.notify.watches[wd]? = some (pathWatch d wd)) (hempty : s.notify.events = [])
    {D : Directory} (hinit : ∀ n, (s.path.listing d).count n = if n ∈ D.names then 1 else 0)
    {ops : List DirOp} (hops : (D.applyAll ops).isSome) :
    (∀ pre, pre <+: ops → ∀ bufs, bufs.flatten = pre.map (DirOp.event wd) →
      ∃ D' s', D.applyAll pre = some D' ∧ run s bufs = .ok s' ∧
        ∀ n, n ∈ s'.path.listing d ↔ n ∈ D'.names) ↔
      ∀ op ∈ ops, ¬ op.Removes := by
  have hin : InStep d (D, s.path) := by
    intro n
    rw [← List.count_pos_iff, hinit n]
    split_ifs with hn <;> simp [hn]
  rw [← throughout_inStep_iff wd hin hops]
  exact forall_run_iff hwatch hempty fun D' m' => InStep d (D', m')

/-- `/bin`, holding `ls` and `cp`. -/
def binDirectory : Directory := ⟨[bytes "ls", bytes "cp"], by decide⟩

/-- `run` with `/bin` listed and its watch in place. -/
def binLoop : Loop where
  notify := (addWatch (Inotify.new 3) ⟨fun _ => some 7, [], []⟩ (bytes "/bin")).1
  path := (∅ : PathMap).insert (bytes "/bin") binDirectory.names

theorem count_listing_binLoop (n : Bytes) :
    (binLoop.path.listing (bytes "/bin")).count n = if n ∈ binDirectory.names then 1 else 0 := by
  rw [binLoop, PathMap.listing_insert_self]
  exact binDirectory.nodup.count

/-- `mv` is created in `/bin`, another file is moved over `ls`, and `grep` is moved in. -/
def binFilled : List DirOp :=
  [⟨.create, bytes "mv", false, 0⟩, ⟨.moveOver, bytes "ls", false, 5⟩,
    ⟨.moveIn, bytes "grep", false, 6⟩]

/-- `listing_inStep_iff` for `binFilled`. -/
theorem listing_inStep_iff_bin :
    (∀ pre, pre <+: binFilled → ∀ bufs, bufs.flatten = pre.map (DirOp.event 1) →
      ∃ D' s', binDirectory.applyAll pre = some D' ∧ run binLoop bufs = .ok s' ∧
        ∀ n, n ∈ s'.path.listing (bytes "/bin") ↔ n ∈ D'.names) ↔
      ∀ op ∈ binFilled, ¬ op.Removes :=
  listing_inStep_iff (by decide) rfl count_listing_binLoop (by decide)

/-- Deleting `ls` from `/bin` takes `cp` off its listing and leaves `ls` there. -/
theorem delete_erases_next_name :
    ∃ D' s', binDirectory.applyAll [⟨.delete, bytes "ls", false, 0⟩] = some D' ∧
      run binLoop [[DirOp.event 1 ⟨.delete, bytes "ls", false, 0⟩]] = .ok s' ∧
      bytes "ls" ∈ s'.path.listing (bytes "/bin") ∧ bytes "ls" ∉ D'.names ∧
      bytes "cp" ∉ s'.path.listing (bytes "/bin") ∧ bytes "cp" ∈ D'.names :=
  ⟨_, _, rfl, rfl, by decide, by decide, by decide, by decide⟩

/-! ## The erases of a run -/

/-- What is to hold of a removal event: the erase is given an element that is the event's name, and
an event for a name that is not listed changes nothing. The second part follows from the first: for
such a name `erase` is given no element at all. -/
def SafeErase (m : PathMap) (event : InotifyEvent) : Prop :=
  Removes event →
    (m.listing event.watch.path)[erasePos (m.listing event.watch.path) event.name]?
        = some event.name ∧
      (event.name ∉ m.listing event.watch.path → handleEvent m event = some m)

/-- The name of a removal event is listed twice in a row where it is listed first. -/
def ListedTwice (m : PathMap) (event : InotifyEvent) : Prop :=
  Removes event → ∃ a b,
    m.listing event.watch.path = a ++ event.name :: event.name :: b ∧ event.name ∉ a

theorem safeErase_iff_listedTwice (m : PathMap) (event : InotifyEvent) :
    SafeErase m event ↔ ListedTwice m event := by
  unfold SafeErase ListedTwice
  constructor
  · intro h hremoves
    exact getElem?_erasePos_eq_some.mp (h hremoves).1
  · intro h hremoves
    have hget := getElem?_erasePos_eq_some.mpr (h hremoves)
    exact ⟨hget, fun hn => absurd (List.mem_of_getElem? hget) hn⟩

theorem exists_handleEvent_of_safeErase {m : PathMap} {event : InotifyEvent}
    (h : SafeErase m event) : ∃ m', handleEvent m event = some m' := by
  by_cases hadds : Adds event
  · exact ⟨_, handleEvent_of_adds hadds⟩
  by_cases hremoves : Removes event
  · have hlt := (List.getElem?_eq_some_iff.mp (h hremoves).1).1
    exact ⟨_, by rw [handleEvent_of_removes hremoves, if_pos hlt]⟩
  · exact ⟨m, handleEvent_of_other hadds hremoves⟩

/-- **The erases of a run.** From any listings and through any events, the run is defined to its end
with every erase given an element that is the event's name, and a removal event for a name that is
not listed changes nothing, if and only if every removal event finds its name listed twice in a
row. -/
theorem erases_safe_iff (m : PathMap) (events : List InotifyEvent) :
    (∃ m', handleEvents m events = some m') ∧ EachStep handleEvent SafeErase m events ↔
      EachStep handleEvent ListedTwice m events := by
  rw [EachStep.congr safeErase_iff_listedTwice, and_iff_right_iff_imp]
  intro h
  exact h.exists_run fun m event hm =>
    exists_handleEvent_of_safeErase ((safeErase_iff_listedTwice m event).mpr hm)

/-- The erase for `cp`, listed last, is at the end of the listing; the one for a name that is not
listed is behind the end. -/
theorem erase_at_the_end :
    handleEvent binLoop.path (opEvent (bytes "/bin") 1 ⟨.delete, bytes "cp", false, 0⟩) = none ∧
      handleEvent binLoop.path (opEvent (bytes "/bin") 1 ⟨.delete, bytes "mv", false, 0⟩) = none ∧
      ¬ EachStep handleEvent SafeErase binLoop.path
        [opEvent (bytes "/bin") 1 ⟨.delete, bytes "cp", false, 0⟩] := by
  refine ⟨by decide, by decide, fun h => ?_⟩
  have hget := (h [] _ List.prefix_rfl binLoop.path rfl (by decide)).1
  exact absurd hget (by decide)

end TudorDo.PathMonitor
