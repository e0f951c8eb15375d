import TudorDo.Lib.Trace
import TudorDo.System.Startup

/-!
# The events on their way

Whatever is done to the directories, files created, deleted or moved, the events travel through two
queues: the kernel's, which `read` empties into the wrapper's, which `run` takes them from. `Routed`
is what makes the two one queue: everything in it belongs to a watch of the wrapper. So no event is
lost, handled twice or out of order (`delivered_in_order`), the listings are those of replaying the
events in the order of the changes, however the thread is scheduled (`schedule_independent`), and the
thread catches up as long as that replay is defined (`catches_up_iff`).
-/

namespace TudorDo

open Lib PathMonitor

namespace System

/-- What a step makes the kernel queue, as the event the program will get. -/
def emitted (s : System) : Action → List InotifyEvent
  | .op ino op =>
    if ino ∈ s.kernel.watched then (s.notify.deliver (op.event (s.kernel.wd ino))).toList else []
  | _ => []

/-- The event a step of the thread handles. -/
def handled (s : System) : Action → List InotifyEvent
  | .prog =>
    match s.pc with
    | .handling (_ + 1) => s.notify.events.take 1
    | _ => []
  | _ => []

@[simp] theorem emitted_prog (s : System) : s.emitted .prog = [] := rfl

@[simp] theorem emitted_read (s : System) (count : Nat) : s.emitted (.read count) = [] := rfl

@[simp] theorem handled_op (s : System) (ino : Inode) (op : DirOp) : s.handled (.op ino op) = [] :=
  rfl

@[simp] theorem handled_read (s : System) (count : Nat) : s.handled (.read count) = [] := rfl

/-- How many events the thread handles before it waits again. -/
def toHandle (s : System) : Nat :=
  match s.pc with
  | .handling count => count
  | _ => 0

theorem handled_of_idle {s : System} (h : s.toHandle = 0) : s.handled .prog = [] := by
  unfold toHandle at h
  unfold handled
  cases hpc : s.pc with
  | handling count =>
      simp only [hpc] at h
      rw [h]
  | _ => rfl

end System

variable (lookup : Bytes → Option Inode)

/-- The two queues and the watches fit together. -/
structure Routed (s : System) : Prop where
  lookup_eq : s.kernel.lookup = lookup
  fd_ne : s.notify.fd ≠ -1
  watches : ∀ (wd : Int) w, s.notify.watches[wd]? = some w → w = pathWatch w.path wd ∧
    ∃ ino ∈ s.kernel.watched, lookup w.path = some ino ∧ wd = s.kernel.wd ino
  watched : ∀ ino ∈ s.kernel.watched, ∃ w, s.notify.watches[s.kernel.wd ino]? = some w
  queue : ∀ evt ∈ s.kernel.queue, ∃ ino ∈ s.kernel.watched, ∃ op : DirOp,
    evt = op.event (s.kernel.wd ino)
  early : s.Early → s.kernel.watched = []
  paced : s.notify.events.length = s.toHandle

variable {lookup} {s s' : System}

/-! ## What one step can do -/

variable (lookup) in
/-- The steps the program and the file system can take. -/
inductive Move (s : System) : Action → System → Prop
  | changed {ino : Inode} {op : DirOp} {D : Directory} (happly : (s.files ino).apply op = some D) :
      Move s (.op ino op)
        { s with files := Function.update s.files ino D, kernel := s.kernel.emit ino op }
  | listed {d : Bytes} {rest : List Bytes} (hpc : s.pc = .listing (d :: rest)) :
      Move s .prog
        { s with path := (updateDirectoryListing s.readDir s.path d).1, pc := .monitoring d rest }
  | watched {d : Bytes} {rest : List Bytes} {ino : Inode} (hpc : s.pc = .adding (d :: rest))
      (hlookup : lookup d = some ino) (hino : ino ∉ s.kernel.watched) :
      Move s .prog
        { s with
          notify := s.notify.withWatch d ((s.kernel.watch ino).wd ino)
          kernel := s.kernel.watch ino
          pc := .adding rest }
  | received {count : Nat} (hpc : s.pc = .waiting) :
      Move s (.read count)
        { s with
          notify := { s.notify with
            events := s.notify.events ++ (s.kernel.queue.take count).filterMap s.notify.deliver }
          kernel := { s.kernel with queue := s.kernel.queue.drop count }
          pc := .handling
            (s.notify.events ++ (s.kernel.queue.take count).filterMap s.notify.deliver).length }
  | handled {event : InotifyEvent} {events : List InotifyEvent} {count : Nat} {path : PathMap}
      (hpc : s.pc = .handling (count + 1)) (hevents : s.notify.events = event :: events)
      (hpath : handleEvent s.path event = some path) :
      Move s .prog
        { s with notify := { s.notify with events }, path := path, pc := .handling count }
  /-- nothing but the place in the program changes, and the watch list -/
  | quiet {pc : Pc} {watchlist : List Bytes} (hidle : s.toHandle = 0)
      (hidle' : System.toHandle { s with pc, watchlist } = 0)
      (hearly : System.Early { s with pc, watchlist } → s.Early) :
      Move s .prog { s with pc, watchlist }

namespace Routed

theorem keepsWatch (h : Routed lookup s) {evt : RawEvent} (hevt : evt ∈ s.kernel.queue) :
    s.notify.KeepsWatch evt := by
  obtain ⟨ino, hino, op, rfl⟩ := h.queue evt hevt
  obtain ⟨w, hw⟩ := h.watched ino hino
  rw [(h.watches _ w hw).1] at hw
  exact keepsWatch_event hw op

/-- The descriptor of a directory that is not watched is free. -/
theorem getElem?_wd_eq_none (h : Routed lookup s) {ino : Inode} (hino : ino ∉ s.kernel.watched) :
    s.notify.watches[(s.kernel.watch ino).wd ino]? = none := by
  cases hw : s.notify.watches[(s.kernel.watch ino).wd ino]? with
  | none => rfl
  | some w =>
      obtain ⟨-, ino', hino', -, hwd⟩ := h.watches _ w hw
      rw [← Kernel.wd_watch hino' ino] at hwd
      exact absurd (Kernel.wd_injective (by simp [Kernel.watch]) hwd ▸ hino') hino

/-- What one `Add` of `run` does. -/
theorem addWatch_cases (h : Routed lookup s) (d : Bytes) :
    (addWatch s.notify s.kernel d = (s.notify, s.kernel) ∧
      (d ∈ s.notify.paths ∨ ∀ ino, lookup d = some ino → ino ∈ s.kernel.watched)) ∨
    ∃ ino, lookup d = some ino ∧ ino ∉ s.kernel.watched ∧
      addWatch s.notify s.kernel d =
        (s.notify.withWatch d ((s.kernel.watch ino).wd ino), s.kernel.watch ino) := by
  have hlookup := h.lookup_eq
  subst hlookup
  exact TudorDo.addWatch_cases h.fd_ne (fun wd w hw => (h.watches wd w hw).2) h.watched d

theorem move_progStep (h : Routed lookup s) (hs' : s.progStep = some s') :
    Move lookup s .prog s' := by
  unfold System.progStep at hs'
  cases hpc : s.pc with
  | listing rest =>
      cases rest with
      | nil =>
          simp only [hpc, Option.some.injEq] at hs'
          subst hs'
          apply Move.quiet <;> simp [System.toHandle, System.Early, hpc]
      | cons d rest =>
          simp only [hpc, Option.some.injEq] at hs'
          subst hs'
          exact .listed hpc
  | monitoring d rest =>
      simp only [hpc, Option.some.injEq] at hs'
      subst hs'
      apply Move.quiet <;> simp [System.toHandle, System.Early, hpc]
  | starting =>
      simp only [hpc, Option.some.injEq] at hs'
      subst hs'
      have hquiet : Move lookup s .prog
          { s with pc := .adding s.watchlist, watchlist := s.watchlist } := by
        apply Move.quiet <;> simp [System.toHandle, System.Early, hpc]
      exact hquiet
  | adding rest =>
      cases rest with
      | nil =>
          simp only [hpc, Option.some.injEq] at hs'
          subst hs'
          apply Move.quiet <;> simp [System.toHandle, System.Early, hpc]
      | cons d rest =>
          simp only [hpc, Option.some.injEq] at hs'
          subst hs'
          rcases h.addWatch_cases d with ⟨heq, -⟩ | ⟨ino, hd, hino, heq⟩
          · -- what `Add` throws is dropped
            rw [heq]
            apply Move.quiet <;> simp [System.toHandle, System.Early, hpc]
          · rw [heq]
            exact .watched hpc hd hino
  | waiting => simp [hpc] at hs'
  | handling count =>
      cases count with
      | zero =>
          simp only [hpc, Option.some.injEq] at hs'
          subst hs'
          apply Move.quiet <;> simp [System.toHandle, System.Early, hpc]
      | succ count =>
          cases hevents : s.notify.events with
          | nil =>
              have hpaced := h.paced
              simp [hevents, System.toHandle, hpc] at hpaced
          | cons event events =>
              simp only [hpc, Loop.next, Inotify.getEvent, hevents, Option.map_map,
                Option.map_eq_some_iff] at hs'
              obtain ⟨path, hpath, rfl⟩ := hs'
              exact .handled hpc hevents hpath
  | stopped => simp [hpc] at hs'

theorem move_step (h : Routed lookup s) {a : Action} (hs' : s.step a = some s') :
    Move lookup s a s' := by
  cases a with
  | op ino op =>
      obtain ⟨D, hD, rfl⟩ := Option.map_eq_some_iff.mp hs'
      exact .changed hD
  | prog => exact h.move_progStep hs'
  | read count =>
      have hwait : s.notify.waitForEvents (s.kernel.queue.take count) = _ :=
        Inotify.waitForEvents_eq fun _ hevt => h.keepsWatch (List.mem_of_mem_take hevt)
      simp only [System.step, hwait, Option.ite_none_right_eq_some, Option.some.injEq] at hs'
      obtain ⟨⟨hpc, -, -⟩, rfl⟩ := hs'
      exact .received hpc

/-! ## What every step keeps -/

theorem routed_init (files : Inode → Directory) (dirs : List Bytes) (fd : Nat) :
    Routed lookup (System.init lookup files dirs fd) := by
  refine ⟨rfl, ?_, ?_, ?_, ?_, fun _ => rfl, ?_⟩
  · show (fd : Int) ≠ -1
    omega
  · simp [System.init, Inotify.new]
  · simp [System.init]
  · simp [System.init]
  · unfold System.toHandle System.init
    split_ifs <;> rfl

/-- A new watch leaves what is queued with the watches it belongs to. -/
theorem deliver_withWatch (h : Routed lookup s) {ino : Inode} (hino : ino ∉ s.kernel.watched)
    (d : Bytes) {evt : RawEvent} (hevt : evt ∈ s.kernel.queue) :
    (s.notify.withWatch d ((s.kernel.watch ino).wd ino)).deliver evt = s.notify.deliver evt := by
  obtain ⟨ino', hino', op, rfl⟩ := h.queue evt hevt
  have hne : (s.kernel.watch ino).wd ino ≠ s.kernel.wd ino' := by
    intro heq
    obtain ⟨w, hw⟩ := h.watched ino' hino'
    rw [← heq, h.getElem?_wd_eq_none hino] at hw
    cases hw
  have hget := Table.withWatch_getElem? s.notify d _ (s.kernel.wd ino') (h.getElem?_wd_eq_none hino)
  rw [if_neg hne] at hget
  unfold Inotify.deliver
  show Option.map _ (s.notify.withWatch d _).watches[s.kernel.wd ino']? = _
  rw [hget]
  rfl

theorem watch (h : Routed lookup s) {d : Bytes} {rest : List Bytes} {ino : Inode}
    (hpc : s.pc = .adding (d :: rest)) (hlookup : lookup d = some ino)
    (hino : ino ∉ s.kernel.watched) :
    Routed lookup { s with
      notify := s.notify.withWatch d ((s.kernel.watch ino).wd ino)
      kernel := s.kernel.watch ino
      pc := .adding rest } := by
  have hget := fun wd => Table.withWatch_getElem? s.notify d _ wd (h.getElem?_wd_eq_none hino)
  have hmem : ∀ {ino'}, ino' ∈ s.kernel.watched → ino' ∈ (s.kernel.watch ino).watched :=
    fun h => List.mem_append_left _ h
  have hself : ino ∈ (s.kernel.watch ino).watched := by simp [Kernel.watch]
  refine ⟨h.lookup_eq, h.fd_ne, fun wd w hw => ?_, fun ino' hino' => ?_, fun evt hevt => ?_,
    fun he => he.elim, ?_⟩
  · rw [hget] at hw
    split_ifs at hw with heq
    · cases hw
      subst heq
      exact ⟨rfl, ino, hself, hlookup, rfl⟩
    · obtain ⟨hw, ino', hino', hlookup', hwd⟩ := h.watches wd w hw
      exact ⟨hw, ino', hmem hino', hlookup', by rw [hwd, Kernel.wd_watch hino']⟩
  · rw [hget]
    split_ifs with heq
    · exact ⟨_, rfl⟩
    · rcases List.mem_append.mp hino' with hino' | hino'
      · rw [Kernel.wd_watch hino']
        exact h.watched ino' hino'
      · exact absurd (List.mem_singleton.mp hino' ▸ rfl) heq
  · obtain ⟨ino', hino', op, heq⟩ := h.queue evt hevt
    exact ⟨ino', hmem hino', op, by rw [heq, Kernel.wd_watch hino']⟩
  · have hpaced := h.paced
    unfold System.toHandle at hpaced ⊢
    rw [hpc] at hpaced
    exact hpaced

theorem emit (h : Routed lookup s) (files : Inode → Directory) (ino : Inode) (op : DirOp) :
    Routed lookup { s with files := files, kernel := s.kernel.emit ino op } := by
  unfold Kernel.emit
  split_ifs with hino
  · refine ⟨h.lookup_eq, h.fd_ne, h.watches, h.watched, fun evt hevt => ?_, h.early, h.paced⟩
    rcases List.mem_append.mp hevt with hevt | hevt
    · exact h.queue evt hevt
    · exact ⟨ino, hino, op, List.mem_singleton.mp hevt⟩
  · exact ⟨h.lookup_eq, h.fd_ne, h.watches, h.watched, h.queue, h.early, h.paced⟩

theorem step (h : Routed lookup s) {a : Action} (hs' : s.step a = some s') : Routed lookup s' := by
  cases h.move_step hs' with
  | changed happly => exact h.emit _ _ _
  | listed hpc =>
      have hpaced := h.paced
      refine ⟨h.lookup_eq, h.fd_ne, h.watches, h.watched, h.queue, fun _ => ?_, ?_⟩
      · exact h.early (by simp [System.Early, hpc])
      · simpa [System.toHandle, hpc] using hpaced
  | watched hpc hlookup hino => exact h.watch hpc hlookup hino
  | received hpc =>
      exact ⟨h.lookup_eq, h.fd_ne, h.watches, h.watched,
        fun evt hevt => h.queue evt (List.mem_of_mem_drop hevt), fun he => he.elim, rfl⟩
  | handled hpc hevents hpath =>
      have hpaced := h.paced
      refine ⟨h.lookup_eq, h.fd_ne, h.watches, h.watched, h.queue, fun he => he.elim, ?_⟩
      simpa [System.toHandle, hpc, hevents] using hpaced
  | quiet hidle hidle' hearly =>
      exact ⟨h.lookup_eq, h.fd_ne, h.watches, h.watched, h.queue, fun he => h.early (hearly he),
        (h.paced.trans hidle).trans hidle'.symm⟩

/-! ## The balance of one step -/

theorem underWay_changed (h : Routed lookup s) (files : Inode → Directory) (ino : Inode)
    (op : DirOp) :
    System.underWay { s with files := files, kernel := s.kernel.emit ino op } =
      s.underWay ++ s.emitted (.op ino op) := by
  by_cases hino : ino ∈ s.kernel.watched
  · obtain ⟨w, hw⟩ := h.watched ino hino
    have hdeliver : s.notify.deliver (op.event (s.kernel.wd ino)) =
        some ⟨op.kind.mask op.isDir, op.cookie, op.name, w⟩ := by
      simp [Inotify.deliver, DirOp.event, hw]
    unfold System.underWay System.emitted Kernel.emit
    simp [hino, hdeliver]
  · unfold System.underWay System.emitted Kernel.emit
    simp [hino]

/-- What is under way and what a step adds to it is what the step handles and what is under way
then. -/
theorem balance (h : Routed lookup s) {a : Action} (hs' : s.step a = some s') :
    s.underWay ++ s.emitted a = s.handled a ++ s'.underWay := by
  cases h.move_step hs' with
  | changed happly => rw [h.underWay_changed, System.handled_op, List.nil_append]
  | listed hpc => simp [System.handled, System.underWay, hpc]
  | @watched d rest ino hpc hlookup hino =>
      have hqueue : s.kernel.queue.filterMap
          (s.notify.withWatch d ((s.kernel.watch ino).wd ino)).deliver =
            s.kernel.queue.filterMap s.notify.deliver :=
        List.filterMap_congr fun evt hevt => h.deliver_withWatch hino d hevt
      have hhandled : s.handled .prog = [] := by simp [System.handled, hpc]
      rw [System.emitted_prog, hhandled, List.append_nil, List.nil_append]
      show _ = s.notify.events ++ s.kernel.queue.filterMap _
      rw [hqueue]
      rfl
  | @received count hpc =>
      have hqueue : (s.kernel.queue.take count).filterMap s.notify.deliver ++
          (s.kernel.queue.drop count).filterMap s.notify.deliver =
            s.kernel.queue.filterMap s.notify.deliver := by
        rw [← List.filterMap_append, List.take_append_drop]
      rw [System.emitted_read, System.handled_read, List.append_nil, List.nil_append]
      show _ = (s.notify.events ++ _) ++ (s.kernel.queue.drop count).filterMap s.notify.deliver
      rw [List.append_assoc, hqueue]
      rfl
  | handled hpc hevents hpath =>
      simp only [System.emitted_prog, System.handled, System.underWay, hpc, hevents, List.append_nil,
        List.take_succ_cons, List.take_zero]
      rfl
  | quiet hidle =>
      rw [System.emitted_prog, System.handled_of_idle hidle, List.append_nil, List.nil_append]
      rfl

/-- Once the directories are listed, the listings change by the events handled. -/
theorem replays (h : Routed lookup s) (hlaunched : ¬ s.Early) {a : Action}
    (hs' : s.step a = some s') : handleEvents s.path (s.handled a) = some s'.path := by
  cases h.move_step hs' with
  | changed happly => rfl
  | listed hpc => exact absurd (by simp [System.Early, hpc]) hlaunched
  | watched hpc => simp [System.handled, hpc, handleEvents]
  | received hpc => rfl
  | handled hpc hevents hpath => simp [System.handled, hpc, hevents, handleEvents, hpath]
  | quiet hidle =>
      rw [System.handled_of_idle hidle]
      rfl

theorem run (h : Routed lookup s) {as : List Action} {t : System}
    (hrun : Lib.run System.step s as = some t) : Routed lookup t :=
  run_keeps (fun _ _ _ h hs' => h.step hs') h hrun

theorem of_run {files : Inode → Directory} {dirs : List Bytes} {fd : Nat} {as : List Action}
    (hrun : Lib.run System.step (System.init lookup files dirs fd) as = some s) :
    Routed lookup s :=
  (routed_init files dirs fd).run hrun

end Routed

/-! ## Whole runs -/

/-- **Delivery.** Through every interleaving of changes of the directories with the steps of the
program, what the kernel queues for the watches is, in this order, what the thread has handled and
what is still under way: no event is lost, none is handled twice and none overtakes another. -/
theorem delivered_in_order {files : Inode → Directory} {dirs : List Bytes} {fd : Nat}
    {as : List Action} {t : System}
    (hrun : Lib.run System.step (System.init lookup files dirs fd) as = some t) :
    trace System.step System.emitted (System.init lookup files dirs fd) as =
      trace System.step System.handled (System.init lookup files dirs fd) as ++ t.underWay := by
  have hinit : Routed lookup (System.init lookup files dirs fd) := Routed.routed_init files dirs fd
  have hbalance := trace_conserved (fun _ _ _ h hs' => h.step hs') (fun _ _ _ h hs' => h.balance hs')
    hinit hrun
  have hnothing : (System.init lookup files dirs fd).underWay = [] := rfl
  rwa [hnothing, List.nil_append] at hbalance

/-- `delivered_in_order` where `mv` is created in `/bin`, and its event read. -/
theorem delivered_in_order_bin :
    ∃ t, Lib.run System.step binInit (startup ++ [createMv, .read 1]) = some t ∧
      trace System.step System.emitted binInit (startup ++ [createMv, .read 1]) =
        trace System.step System.handled binInit (startup ++ [createMv, .read 1]) ++ t.underWay :=
  ⟨_, rfl, delivered_in_order rfl⟩

/-- The change of a directory, where a step is one. -/
def Action.change? : Action → Option (Inode × DirOp)
  | .op ino change => some (ino, change)
  | _ => none

/-- The thread is at its event loop, with the watches of `s`. -/
structure SameWatches (lookup : Bytes → Option Inode) (s t : System) : Prop where
  routed : Routed lookup t
  started : t.Started
  watched : t.kernel.watched = s.kernel.watched
  watches : t.notify.watches = s.notify.watches

theorem System.Started.not_early (h : s.Started) : ¬ s.Early := by
  unfold System.Started at h
  unfold System.Early
  cases hpc : s.pc <;> simp_all

theorem SameWatches.step {t t' : System} (h : SameWatches lookup s t) {a : Action}
    (ht' : t.step a = some t') : SameWatches lookup s t' := by
  have hstarted := h.started
  cases h.routed.move_step ht' with
  | changed happly =>
      exact ⟨h.routed.step ht', h.started, (Kernel.watched_emit _ _ _).trans h.watched, h.watches⟩
  | listed hpc => simp [System.Started, hpc] at hstarted
  | watched hpc => simp [System.Started, hpc] at hstarted
  | received hpc => exact ⟨h.routed.step ht', trivial, h.watched, h.watches⟩
  | handled hpc => exact ⟨h.routed.step ht', trivial, h.watched, h.watches⟩
  | @quiet pc watchlist hidle hidle' hearly =>
      refine ⟨h.routed.step ht', ?_, h.watched, h.watches⟩
      -- from the event loop the thread only goes back to waiting
      unfold System.step System.progStep at ht'
      unfold System.Started at hstarted
      unfold System.toHandle at hidle
      cases hpc : t.pc with
      | handling count =>
          simp only [hpc] at hidle
          subst hidle
          simp only [hpc, Option.some.injEq, System.mk.injEq] at ht'
          obtain ⟨rfl, -⟩ := ht'
          trivial
      | waiting => simp [hpc] at ht'
      | _ => simp [hpc] at hstarted

theorem SameWatches.emitted_eq {t : System} (h : SameWatches lookup s t) (a : Action) :
    t.emitted a = s.emitted a := by
  cases a with
  | op ino op =>
      unfold System.emitted Inotify.deliver Kernel.wd
      simp only [h.watched, h.watches]
  | prog => rfl
  | read count => rfl

/-- What a run comes to once its events are handled. -/
theorem replay_of_quiescent (h : Routed lookup s) (hstarted : s.Started) {as : List Action}
    {t : System} (hrun : Lib.run System.step s as = some t) (ht : t.Quiescent) :
    handleEvents s.path (s.underWay ++ as.flatMap s.emitted) = some t.path := by
  have hsame : SameWatches lookup s s := ⟨h, hstarted, rfl, rfl⟩
  have hnothing : t.underWay = [] := by simp [System.underWay, ht.queue, ht.events]
  have htrace : trace System.step System.emitted s as = as.flatMap s.emitted :=
    trace_eq_flatMap (fun _ _ _ h hs' => h.step hs') (fun _ a h => h.emitted_eq a) hsame hrun
  rw [← htrace]
  exact drives_of_drained (fun _ _ _ h hs' => h.step hs')
    (fun _ _ _ h hs' => h.routed.balance hs')
    (fun _ _ _ h hs' => h.routed.replays h.started.not_early hs') hsame hrun hnothing

theorem flatMap_emitted (s : System) (as : List Action) :
    as.flatMap s.emitted =
      (as.filterMap Action.change?).flatMap fun change => s.emitted (.op change.1 change.2) := by
  induction as with
  | nil => rfl
  | cons a as ih => cases a <;> simp [List.filterMap_cons, Action.change?, ih]

def deleteLs : Action := .op 7 ⟨.delete, bytes "ls", false, 0⟩

/-- The thread alone handles the events that are waiting, and waits again. -/
theorem run_handling (hpc : s.pc = .handling s.notify.events.length) {m : PathMap}
    (hm : handleEvents s.path s.notify.events = some m) :
    Lib.run System.step s (List.replicate (s.notify.events.length + 1) .prog) =
      some { s with notify := { s.notify with events := [] }, path := m, pc := .waiting } := by
  obtain ⟨pc, files, kernel, path, watchlist, fd, watches, paths, events⟩ := s
  simp only at hpc hm ⊢
  subst hpc
  induction events generalizing path with
  | nil =>
      cases hm
      rfl
  | cons event events ih =>
      obtain ⟨path', hpath, hrest⟩ := Option.bind_eq_some_iff.mp hm
      have hnext : System.step ⟨.handling (events.length + 1), files, kernel, path, watchlist,
          ⟨fd, watches, paths, event :: events⟩⟩ .prog =
            some ⟨.handling events.length, files, kernel, path', watchlist,
              ⟨fd, watches, paths, events⟩⟩ := by
        simp only [System.step, System.progStep, Loop.next, Inotify.getEvent, hpath, Option.map_some]
      rw [List.length_cons, List.replicate_succ, run_cons, hnext, Option.bind_some]
      exact ih path' hrest

/-- From the event loop the thread can wait again where the events it has got can be handled. -/
theorem exists_run_waiting (h : Routed lookup s) (hstarted : s.Started) {m : PathMap}
    (hm : handleEvents s.path s.notify.events = some m) :
    ∃ n, Lib.run System.step s (List.replicate n .prog) =
      some { s with notify := { s.notify with events := [] }, path := m, pc := .waiting } := by
  have hpaced := h.paced
  unfold System.toHandle at hpaced
  cases hpc : s.pc with
  | waiting =>
      simp only [hpc, List.length_eq_zero_iff] at hpaced
      refine ⟨0, ?_⟩
      rw [hpaced] at hm
      cases hm
      rw [List.replicate_zero, run_nil, ← hpc, ← hpaced]
  | handling count =>
      simp only [hpc] at hpaced
      subst hpaced
      exact ⟨_, run_handling hpc hm⟩
  | _ => simp [System.Started, hpc] at hstarted

/-- From its wait the thread reads all that is queued at once, and waits again where that can be
handled. -/
theorem run_read_all (h : Routed lookup s) (hpc : s.pc = .waiting) (hevents : s.notify.events = [])
    (hqueue : s.kernel.queue ≠ []) {m : PathMap}
    (hm : handleEvents s.path (s.kernel.queue.filterMap s.notify.deliver) = some m) :
    Lib.run System.step s (.read s.kernel.queue.length ::
        List.replicate ((s.kernel.queue.filterMap s.notify.deliver).length + 1) .prog) =
      some { s with kernel := { s.kernel with queue := [] }, path := m } := by
  let s' : System := { s with
    notify := { s.notify with events := s.kernel.queue.filterMap s.notify.deliver }
    kernel := { s.kernel with queue := [] }
    pc := .handling (s.kernel.queue.filterMap s.notify.deliver).length }
  have hread : System.step s (.read s.kernel.queue.length) = some s' := by
    have hwait : Inotify.waitForEvents s.notify s.kernel.queue = _ :=
      Inotify.waitForEvents_eq fun _ hevt => h.keepsWatch hevt
    have hlen : 0 < s.kernel.queue.length := List.length_pos_iff.mpr hqueue
    simp only [System.step, hpc, hlen, le_refl, and_self, if_true, List.take_length,
      List.drop_length, hwait, hevents, List.nil_append]
    rfl
  have hhandle := run_handling (s := s') rfl hm
  rw [run_cons, hread, Option.bind_some]
  refine hhandle.trans ?_
  rw [← hpc, ← hevents]

/-- A run without changes of the directories. -/
def Undisturbed (as : List Action) : Prop := as.filterMap Action.change? = []

/-- **Catching up.** From any state of the event loop, with no more changes of the directories, the
thread can handle all that is under way, and end with the listings `m`, if and only if replaying the
events under way is defined and gives `m`. -/
theorem catches_up_iff {files : Inode → Directory} {dirs : List Bytes} {fd : Nat}
    {before : List Action}
    (hs : Lib.run System.step (System.init lookup files dirs fd) before = some s)
    (hstarted : s.Started) (m : PathMap) :
    (∃ as t, Undisturbed as ∧ Lib.run System.step s as = some t ∧ t.Quiescent ∧ t.path = m) ↔
      handleEvents s.path s.underWay = some m := by
  have h := Routed.of_run hs
  constructor
  · rintro ⟨as, t, hquiet, hrun, ht, rfl⟩
    have hpath := replay_of_quiescent h hstarted hrun ht
    rwa [flatMap_emitted, hquiet, List.flatMap_nil, List.append_nil] at hpath
  · intro hm
    -- first what `WaitForEvents` has got, then one read of all that is queued
    unfold System.underWay handleEvents at hm
    rw [run_append] at hm
    obtain ⟨m₁, hm₁, hm₂⟩ := Option.bind_eq_some_iff.mp hm
    obtain ⟨n, hn⟩ := exists_run_waiting h hstarted hm₁
    have hundisturbed : ∀ n, Undisturbed (List.replicate n .prog) := by
      intro n
      simp [Undisturbed, Action.change?]
    by_cases hqueue : s.kernel.queue = []
    · refine ⟨_, _, hundisturbed n, hn, ⟨rfl, hqueue, rfl⟩, ?_⟩
      rw [hqueue] at hm₂
      exact Option.some.inj hm₂
    · have hread := run_read_all (h.run hn) rfl rfl hqueue hm₂
      have hrun : Lib.run System.step s (List.replicate n .prog ++ .read s.kernel.queue.length ::
          List.replicate ((s.kernel.queue.filterMap s.notify.deliver).length + 1) .prog) =
            some { s with
              notify := { s.notify with events := [] }
              kernel := { s.kernel with queue := [] }
              path := m
              pc := .waiting } := by
        rw [run_append, hn, Option.bind_some]
        exact hread
      refine ⟨_, _, ?_, hrun, ⟨rfl, rfl, rfl⟩, rfl⟩
      unfold Undisturbed
      rw [List.filterMap_append, hundisturbed n, List.nil_append, List.filterMap_cons]
      exact hundisturbed _

/-- `catches_up_iff` where `mv` is created and its event read, and then `ls` deleted: `cp`, which stands
behind `ls`, is taken out of the listing. -/
theorem catches_up_iff_bin :
    ∃ s, Lib.run System.step binInit (startup ++ [createMv, .read 1, deleteLs]) = some s ∧
      s.notify.events ≠ [] ∧ s.kernel.queue ≠ [] ∧
      ∃ as t, Undisturbed as ∧ Lib.run System.step s as = some t ∧ t.Quiescent ∧
        t.path.listing (bytes "/bin") = [bytes "ls", bytes "mv"] := by
  have hs : Lib.run System.step binInit (startup ++ [createMv, .read 1, deleteLs]) = some _ := rfl
  obtain ⟨as, t, has, hrun, ht, hpath⟩ := (catches_up_iff hs trivial _).mpr rfl
  refine ⟨_, hs, List.cons_ne_nil _ _, List.cons_ne_nil _ _, as, t, has, hrun, ht, ?_⟩
  rw [hpath]
  decide

end TudorDo
