import TudorDo.Do
import TudorDo.System.Delivery

/-!
# Where suggested commands come from

The rows of `on_entry_changed_event` that come from `m_path` name files that have been in the
directory at some time: `suggested_existed`. The handler of removal events can leave names behind
that are gone, but it never makes one up.
-/

namespace TudorDo

open Lib PathMonitor

variable {lookup : Bytes → Option Inode} {files : Inode → Directory} {dirs : List Bytes} {fd : Nat}

/-- In some state of the run of `as` there is a file `n` in the directory that `d` names. -/
def Existed (lookup : Bytes → Option Inode) (s : System) (as : List Action) (d n : Bytes) : Prop :=
  ∃ ino, lookup d = some ino ∧
    ∃ pre s', pre <+: as ∧ Lib.run System.step s pre = some s' ∧ n ∈ (s'.files ino).names

/-- What is listed or under way existed. -/
structure Grounded (lookup : Bytes → Option Inode) (s : System) (as : List Action) (t : System) :
    Prop where
  listed : ∀ d, ∀ n ∈ t.path.listing d, Existed lookup s as d n
  underWay : ∀ event ∈ t.underWay, Existed lookup s as event.watch.path event.name

variable {s t t' : System} {as : List Action} {a : Action}

theorem Existed.append {d n : Bytes} (h : Existed lookup s as d n) (bs : List Action) :
    Existed lookup s (as ++ bs) d n := by
  obtain ⟨ino, hino, pre, s', hpre, hs', hn⟩ := h
  exact ⟨ino, hino, pre, s', hpre.trans (List.prefix_append as bs), hs', hn⟩

theorem existed_of_mem {d n : Bytes} {ino : Inode} (hlookup : lookup d = some ino)
    (ht : Lib.run System.step s as = some t) (hn : n ∈ (t.files ino).names) (bs : List Action) :
    Existed lookup s (as ++ bs) d n :=
  ⟨ino, hlookup, as, t, List.prefix_append as bs, ht, hn⟩

/-- Handling an event lists no other name than the event's. -/
theorem mem_listing_handleEvent {m m' : PathMap} {event : InotifyEvent}
    (h : handleEvent m event = some m') {d n : Bytes} (hn : n ∈ m'.listing d) :
    n ∈ m.listing d ∨ d = event.watch.path ∧ n = event.name := by
  have hinsert : ∀ {l : List Bytes}, n ∈ PathMap.listing (m.insert event.watch.path l) d →
      n ∈ m.listing d ∨ d = event.watch.path ∧ n ∈ l := by
    intro l hn
    by_cases hd : event.watch.path = d
    · rw [hd, PathMap.listing_insert_self] at hn
      exact .inr ⟨hd.symm, hn⟩
    · rw [PathMap.listing_insert_of_ne _ hd] at hn
      exact .inl hn
  by_cases hadds : Adds event
  · rw [handleEvent_of_adds hadds] at h
    cases h
    rcases hinsert hn with hn | ⟨hd, hn⟩
    · exact .inl hn
    · rcases List.mem_append.mp hn with hn | hn
      · exact .inl (hd ▸ hn)
      · exact .inr ⟨hd, List.mem_singleton.mp hn⟩
  by_cases hremoves : Removes event
  · rw [handleEvent_of_removes hremoves, Option.ite_none_right_eq_some, Option.some.injEq] at h
    obtain ⟨-, rfl⟩ := h
    rcases hinsert hn with hn | ⟨hd, hn⟩
    · exact .inl hn
    · exact .inl (hd ▸ (List.eraseIdx_sublist _ _).subset hn)
  · rw [handleEvent_of_other hadds hremoves] at h
    cases h
    exact .inl hn

/-- The name of a change is in the directory before it or after it. -/
theorem mem_of_apply {D D' : Directory} {op : DirOp} (h : D.apply op = some D') :
    op.name ∈ D.names ∨ op.name ∈ D'.names := by
  by_cases hop : op.Removes
  · exact .inl (Directory.apply_of_removes h hop).1
  · exact .inr ((Directory.mem_apply_of_not_removes h hop _).mpr (.inr rfl))

/-- The event of a change goes to a watch on the directory changed. -/
theorem of_mem_emitted (h : Routed lookup t) {ino : Inode} {op : DirOp} {event : InotifyEvent}
    (hevent : event ∈ t.emitted (.op ino op)) :
    lookup event.watch.path = some ino ∧ event.name = op.name := by
  simp only [System.emitted] at hevent
  split_ifs at hevent with hino
  · obtain ⟨w, hw⟩ := h.watched ino hino
    obtain ⟨-, ino', hino', hlookup, hwd⟩ := h.watches _ w hw
    rw [← Kernel.wd_injective hino hwd] at hlookup
    simp only [Inotify.deliver, DirOp.event, hw, Option.map_some, Option.toList_some,
      List.mem_singleton] at hevent
    subst hevent
    exact ⟨hlookup, rfl⟩
  · cases hevent

theorem Grounded.step (h : Grounded lookup s as t) (hrouted : Routed lookup t)
    (ht : Lib.run System.step s as = some t) (ht' : t.step a = some t') :
    Grounded lookup s (as ++ [a]) t' := by
  have hrun : Lib.run System.step s (as ++ [a]) = some t' := by
    rw [run_append, ht, Option.bind_some, run_cons, ht', Option.bind_some, run_nil]
  have hlisted := fun d n hn => (h.listed d n hn).append [a]
  have hunderWay : ∀ event ∈ t'.underWay, event ∈ t.underWay ∨ event ∈ t.emitted a := by
    intro event hevent
    have hbalance := hrouted.balance ht'
    apply List.mem_append.mp
    rw [hbalance]
    exact List.mem_append_right _ hevent
  have hold := fun event hevent => (h.underWay event hevent).append [a]
  cases hrouted.move_step ht' with
  | @changed ino op D happly =>
      refine ⟨hlisted, fun event hevent => ?_⟩
      rcases hunderWay event hevent with hevent | hevent
      · exact hold event hevent
      · obtain ⟨hlookup, hname⟩ := of_mem_emitted hrouted hevent
        rw [hname]
        rcases mem_of_apply happly with hn | hn
        · exact existed_of_mem hlookup ht hn [_]
        · refine ⟨ino, hlookup, _, _, List.prefix_rfl, hrun, ?_⟩
          simpa using hn
  | @listed d rest hpc =>
      refine ⟨fun d' n hn => ?_, fun event hevent => ?_⟩
      · unfold updateDirectoryListing System.readDir at hn
        cases hlookup : t.kernel.lookup d with
        | none =>
            simp only [hlookup, Option.map_none] at hn
            exact hlisted d' n hn
        | some ino =>
            simp only [hlookup, Option.map_some] at hn
            by_cases hd : d = d'
            · rw [← hd, PathMap.listing_insert_self] at hn
              rw [hrouted.lookup_eq, hd] at hlookup
              exact existed_of_mem hlookup ht hn [_]
            · rw [PathMap.listing_insert_of_ne _ hd] at hn
              exact hlisted d' n hn
      · exact hold event ((hunderWay event hevent).resolve_right (by simp))
  | @handled event events count path hpc hevents hpath =>
      refine ⟨fun d n hn => ?_, fun event' hevent' => ?_⟩
      · rcases mem_listing_handleEvent hpath hn with hn | ⟨rfl, rfl⟩
        · exact hlisted d n hn
        · exact hold event (by simp [System.underWay, hevents])
      · exact hold event' ((hunderWay event' hevent').resolve_right (by simp))
  | watched | received | quiet =>
      exact ⟨hlisted, fun event hevent => hold event ((hunderWay event hevent).resolve_right (by simp))⟩

theorem grounded_of_run (hrun : Lib.run System.step (System.init lookup files dirs fd) as = some t) :
    Grounded lookup (System.init lookup files dirs fd) as t := by
  induction as using List.reverseRecOn generalizing t with
  | nil =>
      cases hrun
      refine ⟨fun d n hn => ?_, fun event hevent => ?_⟩
      · simp [System.init, PathMap.listing] at hn
      · simp [System.init, System.underWay, Inotify.new] at hevent
  | append_singleton as a ih =>
      rw [run_append] at hrun
      obtain ⟨t', ht', hstep⟩ := Option.bind_eq_some_iff.mp hrun
      have hstep : t'.step a = some t := by simpa using hstep
      exact (ih ht').step (Routed.of_run ht') ht' hstep

/-! ## What is gone and what stays -/

/-- The operations take no name out of a directory. -/
def Action.KeepsNames : Action → Prop
  | .op _ change => ¬ change.Removes
  | _ => True

theorem names_step (ha : a.KeepsNames) (h : Routed lookup t) (ht' : t.step a = some t') (ino : Inode) :
    (t.files ino).names ⊆ (t'.files ino).names := by
  cases h.move_step ht' with
  | @changed ino' op D happly =>
      show _ ⊆ (Function.update t.files ino' D ino).names
      by_cases hino : ino = ino'
      · subst hino
        rw [Function.update_self]
        exact fun n hn => (Directory.mem_apply_of_not_removes happly ha n).mpr (.inl hn)
      · rw [Function.update_of_ne hino]
        exact List.Subset.refl _
  | listed | watched | received | handled | quiet => exact List.Subset.refl _

theorem names_run (has : ∀ a ∈ as, a.KeepsNames) (h : Routed lookup s)
    (hrun : Lib.run System.step s as = some t) (ino : Inode) :
    (s.files ino).names ⊆ (t.files ino).names := by
  have hstep : ∀ t a t', a.KeepsNames →
      Routed lookup t ∧ (s.files ino).names ⊆ (t.files ino).names → t.step a = some t' →
      Routed lookup t' ∧ (s.files ino).names ⊆ (t'.files ino).names := by
    rintro t a t' ha ⟨ht, hnames⟩ hstep
    exact ⟨ht.step hstep, List.Subset.trans hnames (names_step ha ht hstep ino)⟩
  exact (run_invariant hstep ⟨h, List.Subset.refl _⟩ has hrun).2

/-- **Commands suggested.** In every state that any interleaving of changes of the directories with
the steps of the program leads to, a command suggested from `m_path` has been in its directory; and
it still is where no name was taken out of a directory. -/
theorem suggested_existed (hrun : Lib.run System.step (System.init lookup files dirs fd) as = some t)
    (text : Bytes) {row : Row} (hrow : row ∈ Do.commandRows t.path text) :
    Existed lookup (System.init lookup files dirs fd) as row.dir row.file ∧
      ((∀ a ∈ as, a.KeepsNames) →
        ∃ ino, lookup row.dir = some ino ∧ row.file ∈ (t.files ino).names) := by
  have hexisted := (grounded_of_run hrun).listed _ _ (Do.of_mem_commandRows hrow).1
  refine ⟨hexisted, fun has => ?_⟩
  obtain ⟨ino, hlookup, pre, s', ⟨post, rfl⟩, hs', hn⟩ := hexisted
  rw [run_append, hs', Option.bind_some] at hrun
  exact ⟨ino, hlookup, names_run (fun a ha => has a (List.mem_append_right _ ha))
    (Routed.of_run hs') hrun ino hn⟩

/-- `grep` is moved into `/bin`. -/
def moveGrep : Action := .op 7 ⟨.moveIn, bytes "grep", false, 5⟩

/-- `suggested_existed` for `grep`, moved into `/bin` and suggested for `gre`. -/
theorem suggested_existed_grep :
    ∃ t, Lib.run System.step binInit (startup ++ [createMv, moveGrep, .read 2, .prog, .prog])
        = some t ∧
      Existed binLookup binInit (startup ++ [createMv, moveGrep, .read 2, .prog, .prog])
        (bytes "/bin") (bytes "grep") ∧
      ∃ ino, binLookup (bytes "/bin") = some ino ∧ bytes "grep" ∈ (t.files ino).names := by
  have hrun : Lib.run System.step binInit (startup ++ [createMv, moveGrep, .read 2, .prog, .prog])
      = some _ := rfl
  obtain ⟨hexisted, hstays⟩ := suggested_existed hrun (bytes "gre")
    (show (⟨bytes "/bin", bytes "grep"⟩ : Row) ∈ _ by decide)
  refine ⟨_, hrun, hexisted, hstays ?_⟩
  simp [startup, createMv, moveGrep, Action.KeepsNames, DirOp.Removes, OpKind.removes]

end TudorDo
