import TudorDo.Do.Session
import TudorDo.System.Launch
import TudorDo.System.Provenance

/-!
# The whole program

After its constructor the dialog runs in the main loop, with `PathMonitor::run` and `XKeyBind::run`
in threads of their own. The first thread changes `m_path`, which the dialog suggests commands from;
the second has the dialog shown through `sig_done`. A `Turn` is one step of any of them, or of what is
around them, and they come in any order. A call of a handler is one turn, although
`on_entry_changed_event` goes through `m_path` without `m_mutex` and the thread can write to it then.

`run_components` takes a run apart: what is said about all runs of `System.step` and about all sessions
with the dialog holds of the program. `origin_of_run` says where all that is suggested comes from, and
`shown_per_press` that the dialog answers each press of the hotkey once.
-/

namespace TudorDo

open Lib Lib.Ascii Glib PathMonitor

/-! ## Turns -/

/-- What `XNextEvent` gets. -/
inductive XEvent
  | keyPress
  | other
  deriving DecidableEq

structure Program where
  system : System
  dialog : Do
  /-- what `XKeyBind::run` has still to get -/
  xevents : List XEvent
  /-- how many emissions of `sig_done` the main loop has still to deal with -/
  emitted : Nat

/-- The constructor is through, and has not ended the program for want of directories. The thread does
not end later (`System.running_of_run`). -/
def System.running (s : System) : Bool :=
  match s.pc with
  | .adding _ | .waiting | .handling _ => true
  | _ => false

theorem System.ne_stopped_step {lookup : Bytes → Option Inode} {s s' : System} {a : Action}
    (h : Routed lookup s) (hpc : s.pc ≠ .stopped) (hs' : s.step a = some s') : s'.pc ≠ .stopped := by
  cases a with
  | op ino op =>
      obtain ⟨D, -, rfl⟩ := Option.map_eq_some_iff.mp hs'
      exact hpc
  | prog =>
      change s.progStep = some s' at hs'
      unfold System.progStep at hs'
      split at hs'
      case h_7 | h_10 => cases hs'
      case h_9 =>
        obtain ⟨loop, -, rfl⟩ := Option.map_eq_some_iff.mp hs'
        exact Pc.noConfusion
      all_goals
        obtain rfl := Option.some.inj hs'
        exact Pc.noConfusion
  | read count =>
      cases h.move_step hs' with
      | received => exact Pc.noConfusion

/-- Once the constructor is through, the program goes on: `WaitForEvents` never throws. -/
theorem System.running_of_run {lookup : Bytes → Option Inode} {files : Inode → Directory}
    {path : Bytes} {fd : Nat} {s : System} {as : List Action} (hpath : path ≠ [])
    (hrun : Lib.run System.step (System.launch lookup files path fd) as = some s)
    (hearly : ¬ s.Early) : s.running = true := by
  have hinit : (System.launch lookup files path fd).pc ≠ .stopped := by
    have hdirs : split path colon ≠ [] := fun h => hpath (split_eq_nil_iff.mp h)
    simp [System.launch, System.init, hdirs]
  have hstep : ∀ s a s', Routed lookup s ∧ s.pc ≠ .stopped → System.step s a = some s' →
      Routed lookup s' ∧ s'.pc ≠ .stopped :=
    fun s a s' h hs' => ⟨h.1.step hs', System.ne_stopped_step h.1 h.2 hs'⟩
  have hpc := (run_keeps hstep ⟨Routed.routed_init files _ fd, hinit⟩ hrun).2
  unfold System.running
  cases h : s.pc with
  | stopped => exact absurd h hpc
  | listing | monitoring | starting => simp [System.Early, h] at hearly
  | _ => rfl

/-- The user does this. -/
def Do.Input.fromUser : Do.Input → Bool
  | .present | .listings _ => false
  | _ => true

/-- The user can do nothing with a hidden dialog. -/
theorem Do.visible_of_possible {s : Do} {input : Do.Input} (huser : input.fromUser = true)
    (h : Do.Possible s input) : s.visible = true := by
  cases input with
  | present | listings => cases huser
  | select row => exact h.1
  | _ => exact h

namespace Program

inductive Turn
  /-- the constructor, the thread of `PathMonitor` or another program -/
  | system (a : Action)
  /-- the main loop calls the handlers of the dialog -/
  | input (w : Do.World) (input : Do.Input)
  /-- the X server reports something -/
  | xevent (event : XEvent)
  /-- `XKeyBind::run` gets its next event -/
  | xnext
  /-- the main loop deals with an emission of `sig_done` -/
  | present

/-- The program with the value of `PATH`. -/
def launch (lookup : Bytes → Option Inode) (files : Inode → Directory) (path : Bytes)
    (fd : Nat) : Program where
  system := System.launch lookup files path fd
  dialog := Do.start ∅
  xevents := []
  emitted := 0

/-- The next state, where no handler throws and every directory of `PATH` can be opened. -/
def step (s : Program) : Turn → Option Program
  | .system a =>
    (s.system.step a).map fun system =>
      { s with system, dialog := { s.dialog with path := system.path } }
  | .input w input =>
    if s.system.running ∧ input.fromUser then
      (s.dialog.step (w, input)).map fun dialog => { s with dialog }
    else none
  | .xevent event => some { s with xevents := s.xevents ++ [event] }
  | .xnext =>
    match s.xevents with
    | [] => none
    | event :: xevents =>
      if s.system.running then
        some { s with xevents, emitted := if event = .keyPress then s.emitted + 1 else s.emitted }
      else none
  | .present =>
    if s.system.running ∧ 0 < s.emitted then
      some { s with dialog := { s.dialog with visible := true }, emitted := s.emitted - 1 }
    else none

variable {lookup : Bytes → Option Inode} {files : Inode → Directory} {path : Bytes} {fd : Nat}
  {s s' t : Program} {e : Turn} {es : List Turn}

/-- What a turn leads to. -/
inductive Taken (s : Program) : Turn → Program → Prop
  | system {a : Action} {system : System} (h : s.system.step a = some system) :
    Taken s (.system a) { s with system, dialog := { s.dialog with path := system.path } }
  | input {w : Do.World} {input : Do.Input} {dialog : Do} (huser : input.fromUser = true)
    (h : s.dialog.step (w, input) = some dialog) : Taken s (.input w input) { s with dialog }
  | xevent (event : XEvent) : Taken s (.xevent event) { s with xevents := s.xevents ++ [event] }
  | xnext {event : XEvent} {xevents : List XEvent} (h : s.xevents = event :: xevents) :
    Taken s .xnext
      { s with xevents, emitted := if event = .keyPress then s.emitted + 1 else s.emitted }
  | present {emitted : Nat} (h : s.emitted = emitted + 1) :
    Taken s .present { s with dialog := { s.dialog with visible := true }, emitted }

theorem taken_of_step (h : s.step e = some s') : Taken s e s' := by
  cases e with
  | system a =>
      obtain ⟨system, hsystem, rfl⟩ := Option.map_eq_some_iff.mp h
      exact .system hsystem
  | input w input =>
      simp only [step] at h
      split_ifs at h with hinput
      obtain ⟨dialog, hdialog, rfl⟩ := Option.map_eq_some_iff.mp h
      exact .input hinput.2 hdialog
  | xevent event =>
      cases h
      exact .xevent event
  | xnext =>
      simp only [step] at h
      cases hxevents : s.xevents with
      | nil => simp [hxevents] at h
      | cons event xevents =>
          simp only [hxevents, Option.ite_none_right_eq_some, Option.some.injEq] at h
          obtain ⟨-, rfl⟩ := h
          exact .xnext hxevents
  | present =>
      simp only [step] at h
      split_ifs at h with hpresent
      obtain rfl := Option.some.inj h
      exact .present (by omega)

/-! ## The parts of a run -/

/-- The step of the rest of the program, where a turn is one. -/
def Turn.action? : Turn → Option Action
  | .system a => some a
  | _ => none

/-- The steps of a session that a turn is for the dialog, in the world `w` where it asks nothing. -/
def heard (w : Do.World) (s : Program) : Turn → List (Do.World × Do.Input)
  | .system a => ((s.system.step a).map fun system => (w, .listings system.path)).toList
  | .input w input => [(w, input)]
  | .present => [(w, .present)]
  | _ => []

/-- **The parts.** A run of the program is one of the constructor, `PathMonitor` and the other
programs, as if there were no dialog; and to the dialog it is a session, in which it hears of new
listings and is called up. -/
theorem run_components (w : Do.World)
    (hrun : Lib.run step (launch lookup files path fd) es = some t) :
    Lib.run System.step (System.launch lookup files path fd) (es.filterMap Turn.action?) =
        some t.system ∧
      Lib.run Do.step (Do.start ∅) (trace step (heard w) (launch lookup files path fd) es) =
        some t.dialog := by
  have hinv : ∀ (s : Program) e s', True → s.step e = some s' → True := fun _ _ _ h _ => h
  constructor
  · have hsystem : ∀ (s : Program) e s', True → s.step e = some s' →
        Lib.run System.step s.system (Turn.action? e).toList = some s'.system := by
      intro s e s' _ hs'
      cases taken_of_step hs' with
      | system h => simpa [Turn.action?] using h
      | _ => rfl
    have hdrives := trace_drives hinv hsystem trivial hrun
    have htrace : trace step (fun _ e => (Turn.action? e).toList) (launch lookup files path fd) es =
        es.flatMap fun e => (Turn.action? e).toList :=
      trace_eq_flatMap hinv (fun _ _ _ => rfl) trivial hrun
    rwa [htrace, ← List.filterMap_eq_flatMap_toList] at hdrives
  · have hdialog : ∀ (s : Program) e s', True → s.step e = some s' →
        Lib.run Do.step s.dialog (heard w s e) = some s'.dialog := by
      intro s e s' _ hs'
      cases taken_of_step hs' with
      | system h =>
          simp only [heard, h, Option.map_some, Option.toList_some]
          rfl
      | input _ h => simpa [heard] using h
      | xevent | xnext => rfl
      | present => rfl
    exact trace_drives hinv hdialog trivial hrun

/-- `grep` is put into `/bin` while the hotkey is pressed, and `gre` typed. -/
def grepTyped : List Turn :=
  startup.map .system ++ [.xevent .keyPress, .system (.op 7 ⟨.create, bytes "grep", false, 0⟩), .xnext,
    .system (.read 1), .present, .system .prog,
    .input ⟨Do.oneFile, [], []⟩ (.edit ⟨bytes "gre", 3, 3⟩)]

theorem run_grepTyped :
    ∃ t, Lib.run step (launch binLookup (fun _ => binDirectory) (bytes "/bin") 3) grepTyped = some t ∧
      t.dialog.liststore = [⟨bytes "/bin", bytes "grep"⟩] := by
  have hrows : (Lib.run step (launch binLookup (fun _ => binDirectory) (bytes "/bin") 3)
      grepTyped).map (fun t => t.dialog.liststore) = some [⟨bytes "/bin", bytes "grep"⟩] := by
    decide +kernel
  exact Option.map_eq_some_iff.mp hrows

/-! ## Where the rows come from -/

variable (lookup) in
/-- Where a row comes from: an entry of a directory or a variable the dialog was shown, a command line
that Enter has started, or a file that has been in a directory of `PATH`. -/
inductive Origin (s : Program) (es : List Turn) : Row → Prop
  | entry {w : Do.World} {input : Do.Input} {names : List Bytes} {d n : Bytes}
    (hinput : .input w input ∈ es) (hdir : w.fs.openDir d = some names) (hn : n ∈ names) :
    Origin s es ⟨d, escapeSpaces (buildFilename d n)⟩
  | envVar {w : Do.World} {input : Do.Input} {it : Bytes} (hinput : .input w input ∈ es)
    (hit : it ∈ w.env) : Origin s es ⟨[], dollar :: it⟩
  | command {pre : List Turn} {w : Do.World} {start : List Bytes → Bool} {s' : Program} {h : Bytes}
    (hpre : pre ++ [.input w (.enter start)] <+: es) (hs' : Lib.run step s pre = some s')
    (hrecords : Do.Activation.Records w.fs ⟨s'.dialog.entry.text, start⟩ h) : Origin s es ⟨[], h⟩
  | listed {d n : Bytes} (h : Existed lookup s.system (es.filterMap Turn.action?) d n) :
    Origin s es ⟨d, n⟩

variable (lookup) in
/-- What the dialog holds comes from what was around it. -/
structure Sourced (s : Program) (es : List Turn) (t : Program) : Prop where
  path_eq : t.dialog.path = t.system.path
  fresh : Do.Fresh (fun w path => (∃ input, .input w input ∈ es) ∧
    ∀ d, ∀ n ∈ path.listing d, Existed lookup s.system (es.filterMap Turn.action?) d n) t.dialog
  history : ∀ h ∈ t.dialog.history, ∃ pre w start s', pre ++ [.input w (.enter start)] <+: es ∧
    Lib.run step s pre = some s' ∧ Do.Activation.Records w.fs ⟨s'.dialog.entry.text, start⟩ h

theorem Sourced.step (h : Sourced lookup s es t)
    (hgrounded : Grounded lookup s.system (es.filterMap Turn.action?) t.system)
    (hrun : Lib.run step s es = some t) (ht : t.step e = some s') :
    Sourced lookup s (es ++ [e]) s' := by
  have hfresh : Do.Fresh (fun w path => (∃ input, .input w input ∈ es ++ [e]) ∧
      ∀ d, ∀ n ∈ path.listing d,
        Existed lookup s.system ((es ++ [e]).filterMap Turn.action?) d n) t.dialog := by
    apply h.fresh.mono
    rintro w path ⟨⟨input, hinput⟩, hpath⟩
    refine ⟨⟨input, List.mem_append_left _ hinput⟩, fun d n hn => ?_⟩
    rw [List.filterMap_append]
    exact (hpath d n hn).append _
  have hhistory : ∀ h ∈ t.dialog.history, ∃ pre w start s',
      pre ++ [.input w (.enter start)] <+: es ++ [e] ∧ Lib.run Program.step s pre = some s' ∧
        Do.Activation.Records w.fs ⟨s'.dialog.entry.text, start⟩ h := by
    intro line hline
    obtain ⟨pre, w, start, s₁, hpre, hs₁, hrecords⟩ := h.history line hline
    exact ⟨pre, w, start, s₁, hpre.trans (List.prefix_append es [e]), hs₁, hrecords⟩
  cases taken_of_step ht with
  | system hsystem => exact ⟨rfl, hfresh, hhistory⟩
  | @input w input dialog huser hdialog =>
      obtain ⟨-, hperform⟩ := Do.step_eq_some hdialog
      refine ⟨?_, ?_, fun line hline => ?_⟩
      · rw [← h.path_eq]
        apply Do.perform_path _ hperform
        rintro path rfl
        simp [Do.Input.fromUser] at huser
      · refine hfresh.perform ⟨⟨input, by simp⟩, fun d n hn => ?_⟩ hperform
        rw [h.path_eq] at hn
        rw [List.filterMap_append]
        exact (hgrounded.listed d n hn).append _
      · rcases (Do.mem_history_step hdialog line).mp hline with hold | ⟨start, rfl, hrecords⟩
        · exact hhistory line hold
        · exact ⟨es, w, start, t, List.prefix_rfl, hrun, hrecords⟩
  | xevent | xnext | present => exact ⟨h.path_eq, hfresh, hhistory⟩

theorem sourced_of_run (hrun : Lib.run step (launch lookup files path fd) es = some t) :
    Sourced lookup (launch lookup files path fd) es t := by
  induction es using List.reverseRecOn generalizing t with
  | nil =>
      cases hrun
      refine ⟨rfl, Do.fresh_start ∅, fun h hh => ?_⟩
      exact absurd hh Std.ExtTreeSet.not_mem_empty
  | append_singleton es e ih =>
      rw [run_append] at hrun
      obtain ⟨t', ht', hstep⟩ := Option.bind_eq_some_iff.mp hrun
      have hstep : t'.step e = some t := by simpa using hstep
      have hsystem := (run_components ⟨.oneRegularFile, [], []⟩ ht').1
      exact (ih ht').step (grounded_of_run hsystem) ht' hstep

/-- **Origins.** In every state of the program, whatever its threads, the user and other programs have
done in whatever order, each row suggested has an origin. -/
theorem origin_of_run (hrun : Lib.run step (launch lookup files path fd) es = some t) {row : Row}
    (hrow : row ∈ t.dialog.liststore) : Origin lookup (launch lookup files path fd) es row := by
  have h := sourced_of_run hrun
  obtain ⟨w, listings, hseen, hlisted⟩ := h.fresh
  obtain ⟨row₁, rows, hrows⟩ := List.exists_cons_of_ne_nil (List.ne_nil_of_mem hrow)
  rw [hrows] at hlisted hrow
  obtain ⟨word, -, -, hwordRows⟩ := Do.of_listed_cons hlisted
  obtain ⟨⟨input, hinput⟩, hexisted⟩ := hseen.resolve_right fun hempty => by
    rw [hempty] at hlisted
    cases hlisted
  rcases Do.of_mem_wordRows hwordRows hrow with ⟨names, -, -, hdir, hrow⟩ | ⟨-, hrow⟩ | hrow | hrow
  · obtain ⟨n, hn, rfl⟩ := List.mem_map.mp hrow
    exact .entry hinput hdir (List.mem_filter.mp hn).1
  · obtain ⟨it, hit, rfl⟩ := List.mem_map.mp hrow
    exact .envVar hinput (List.mem_filter.mp hit).1
  · obtain ⟨line, hline, rfl⟩ := List.mem_map.mp hrow
    have hline := Std.ExtTreeSet.mem_toList.mp (List.mem_filter.mp hline).1
    obtain ⟨pre, w, start, s', hpre, hs', hrecords⟩ := h.history line hline
    exact .command hpre hs' hrecords
  · exact .listed (hexisted _ _ (Do.of_mem_commandRows hrow).1)

/-- `origin_of_run` for `grep`. -/
theorem origin_of_run_grep :
    Origin binLookup (launch binLookup (fun _ => binDirectory) (bytes "/bin") 3) grepTyped
      ⟨bytes "/bin", bytes "grep"⟩ := by
  obtain ⟨t, ht, hrows⟩ := run_grepTyped
  exact origin_of_run ht (hrows ▸ List.mem_singleton_self _)

/-! ## The hotkey -/

def Turn.isPress : Turn → Bool
  | .xevent .keyPress => true
  | _ => false

def Turn.isPresent : Turn → Bool
  | .present => true
  | _ => false

/-- The presses that the dialog has still to be shown for. -/
def outstanding (s : Program) : Nat := s.emitted + s.xevents.count .keyPress

theorem outstanding_step (h : s.step e = some s') :
    s.outstanding + [e].countP Turn.isPress = [e].countP Turn.isPresent + s'.outstanding := by
  cases taken_of_step h with
  | system | input => simp [Turn.isPress, Turn.isPresent, outstanding]
  | xevent event =>
      cases event <;> simp [Turn.isPress, Turn.isPresent, outstanding, Nat.add_assoc]
  | @xnext event xevents hxevents =>
      cases event with
      | keyPress =>
          simp [Turn.isPress, Turn.isPresent, outstanding, hxevents]
          omega
      | other => simp [Turn.isPress, Turn.isPresent, outstanding, hxevents]
  | present hemitted =>
      simp [Turn.isPress, Turn.isPresent, outstanding, hemitted]
      omega

theorem outstanding_run (hrun : Lib.run step s es = some t) :
    s.outstanding + es.countP Turn.isPress = es.countP Turn.isPresent + t.outstanding := by
  induction es generalizing s with
  | nil =>
      cases hrun
      simp
  | cons e es ih =>
      obtain ⟨s', hs', hrun⟩ := Option.bind_eq_some_iff.mp hrun
      have hstep := outstanding_step hs'
      have hrest := ih hrun
      rw [← List.singleton_append, List.countP_append, List.countP_append]
      omega

/-- Before the first press the dialog is as it was made, but for the listings. -/
theorem untouched_of_run (hrun : Lib.run step (launch lookup files path fd) es = some t)
    (hes : ∀ e ∈ es, e.isPress = false) : t.dialog = Do.start t.system.path := by
  have hstep : ∀ (s : Program) e s', e.isPress = false →
      s.outstanding = 0 ∧ s.dialog = Do.start s.system.path → s.step e = some s' →
      s'.outstanding = 0 ∧ s'.dialog = Do.start s'.system.path := by
    rintro s e s' he ⟨hnone, hdialog⟩ hs'
    have hcount := outstanding_step hs'
    rw [List.countP_singleton, he, if_neg Bool.false_ne_true] at hcount
    refine ⟨by omega, ?_⟩
    cases taken_of_step hs' with
    | system =>
        rw [hdialog]
        rfl
    | input huser h =>
        -- it is not shown, so there is no input
        rw [hdialog] at h
        have hvisible := Do.visible_of_possible huser (Do.step_eq_some h).1
        cases hvisible
    | xevent | xnext => exact hdialog
    | present hemitted =>
        unfold outstanding at hnone
        omega
  exact (run_invariant hstep ⟨rfl, rfl⟩ hes hrun).2

/-- The thread gets all that the X server has reported. -/
theorem run_xnext (hrunning : s.system.running = true) :
    Lib.run step s (List.replicate s.xevents.length .xnext) =
      some { s with xevents := [], emitted := s.outstanding } := by
  obtain ⟨system, dialog, xevents, emitted⟩ := s
  induction xevents generalizing emitted with
  | nil => rfl
  | cons event xevents ih =>
      have hnext : step ⟨system, dialog, event :: xevents, emitted⟩ .xnext = some ⟨system, dialog,
          xevents, if event = .keyPress then emitted + 1 else emitted⟩ := if_pos hrunning
      rw [List.length_cons, List.replicate_succ, run_cons, hnext, Option.bind_some, ih _ hrunning]
      cases event with
      | keyPress =>
          simp only [outstanding, if_true, List.count_cons_self]
          rw [Nat.add_assoc, Nat.add_comm 1]
      | other => simp [outstanding]

/-- The main loop deals with all that is emitted. -/
theorem run_present (hrunning : s.system.running = true) :
    Lib.run step s (List.replicate s.emitted .present) = some { s with
      dialog := { s.dialog with visible := s.dialog.visible || 0 < s.emitted }
      emitted := 0 } := by
  obtain ⟨system, dialog, xevents, emitted⟩ := s
  induction emitted generalizing dialog with
  | zero => simp
  | succ emitted ih =>
      have hpresent : step ⟨system, dialog, xevents, emitted + 1⟩ .present =
          some ⟨system, { dialog with visible := true }, xevents, emitted⟩ :=
        if_pos ⟨hrunning, Nat.succ_pos emitted⟩
      rw [List.replicate_succ, run_cons, hpresent, Option.bind_some, ih _ hrunning]
      simp

/-- **The hotkey.** In every run each press reported is answered by one showing of the dialog, or will
be: nothing else shows it, and once the constructor is through the two threads, left alone, catch up.
Before the first press nothing reaches the dialog but listings. -/
theorem shown_per_press (hrun : Lib.run step (launch lookup files path fd) es = some t) :
    es.countP Turn.isPress = es.countP Turn.isPresent + t.outstanding ∧
      (path ≠ [] → ¬ t.system.Early → ∃ es' t', (∀ e ∈ es', e = .xnext ∨ e = .present) ∧
        Lib.run step t es' = some t' ∧ t'.outstanding = 0 ∧
          (0 < t.outstanding → t'.dialog.visible = true)) ∧
      ((∀ e ∈ es, e.isPress = false) → t.dialog = Do.start t.system.path) := by
  refine ⟨?_, fun hpath hearly => ?_, untouched_of_run hrun⟩
  · have hcount := outstanding_run hrun
    have hnone : (launch lookup files path fd).outstanding = 0 := rfl
    omega
  · have hrunning : t.system.running = true :=
      System.running_of_run hpath (run_components ⟨.oneRegularFile, [], []⟩ hrun).1 hearly
    have hcatchUp : Lib.run step t (List.replicate t.xevents.length .xnext ++
        List.replicate t.outstanding .present) = some { t with
          dialog := { t.dialog with visible := t.dialog.visible || 0 < t.outstanding }
          xevents := []
          emitted := 0 } := by
      rw [run_append, run_xnext hrunning, Option.bind_some]
      exact run_present hrunning
    refine ⟨_, _, fun e he => ?_, hcatchUp, rfl, fun hpos => by simp [hpos]⟩
    rcases List.mem_append.mp he with he | he
    · exact .inl (List.eq_of_mem_replicate he)
    · exact .inr (List.eq_of_mem_replicate he)

/-- `shown_per_press` for one press. -/
theorem shown_per_press_grep :
    ∃ t, Lib.run step (launch binLookup (fun _ => binDirectory) (bytes "/bin") 3) grepTyped = some t ∧
      grepTyped.countP Turn.isPress = grepTyped.countP Turn.isPresent + t.outstanding := by
  obtain ⟨t, ht, -⟩ := run_grepTyped
  exact ⟨t, ht, (shown_per_press ht).1⟩

end Program

end TudorDo
