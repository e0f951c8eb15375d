import TudorDo.System.Invariant

/-!
# What a listing has and is still owed

The names of a directory `d` that the program knows of are those listed and those of the events
under way to its watch: its `account`. Handling events and reading them off the kernel's queue moves
names within the account and changes nothing about it; only listing the directory and creating a
file in it do (`account_step`). A file created between the two is in no account ever:
`exact_or_missing`.
-/

namespace TudorDo

open Lib PathMonitor

namespace System

/-- The events under way to the program, in the order it will handle them. -/
def underWay (s : System) : List InotifyEvent :=
  s.notify.events ++ s.kernel.queue.filterMap s.notify.deliver

/-- The names that events under way will append to the listing of `d`. -/
def owed (s : System) (d : Bytes) : List Bytes :=
  (s.underWay.filter fun event => event.watch.path = d).map InotifyEvent.name

/-- The names listed for `d`, and those that will be. -/
def account (s : System) (d : Bytes) : List Bytes := s.path.listing d ++ s.owed d

/-- The events of the directory `ino` go to the listing of `d`. -/
def Subscribed (s : System) (d : Bytes) (ino : Inode) : Prop :=
  ino ∈ s.kernel.watched ∧ ∃ w, s.notify.watches[s.kernel.wd ino]? = some w ∧ w.path = d

end System

variable {lookup : Bytes → Option Inode} {dirs : List Bytes} {s s' : System} {d : Bytes}
  {ino : Inode}

/-! ## One step -/

theorem Table.lookup_of_subscribed (h : Table lookup dirs s.kernel s.notify)
    (hsub : s.Subscribed d ino) : lookup d = some ino := by
  obtain ⟨hino, w, hw, rfl⟩ := hsub
  obtain ⟨-, -, ino', -, hlookup, hwd⟩ := h.watches _ w hw
  rw [hlookup, Kernel.wd_injective hino hwd]

/-- What a change of a watched directory adds to the events under way. -/
theorem owed_emit_of_watched (files : Inode → Directory) (hino : ino ∈ s.kernel.watched)
    (op : DirOp) :
    System.owed { s with files := files, kernel := s.kernel.emit ino op } d = s.owed d ++
      ((s.notify.deliver (op.event (s.kernel.wd ino))).toList.filter
        fun event => event.watch.path = d).map InotifyEvent.name := by
  have hqueue : (s.kernel.emit ino op).queue = s.kernel.queue ++ [op.event (s.kernel.wd ino)] := by
    rw [Kernel.emit, if_pos hino]
  unfold System.owed System.underWay
  rw [hqueue, List.filterMap_append, ← List.append_assoc, List.filter_append, List.map_append]
  cases hdeliver : s.notify.deliver (op.event (s.kernel.wd ino)) <;> simp [hdeliver]

theorem owed_emit_of_subscribed (files : Inode → Directory) (h : s.Subscribed d ino) (op : DirOp) :
    System.owed { s with files := files, kernel := s.kernel.emit ino op } d =
      s.owed d ++ [op.name] := by
  obtain ⟨hino, w, hw, hpath⟩ := h
  rw [owed_emit_of_watched files hino]
  simp [Inotify.deliver, DirOp.event, hw, hpath]

theorem owed_emit_of_not_subscribed (files : Inode → Directory) (h : ¬ s.Subscribed d ino)
    (op : DirOp) :
    System.owed { s with files := files, kernel := s.kernel.emit ino op } d = s.owed d := by
  by_cases hino : ino ∈ s.kernel.watched
  · rw [owed_emit_of_watched files hino]
    cases hw : s.notify.watches[s.kernel.wd ino]? with
    | none => simp [Inotify.deliver, DirOp.event, hw]
    | some w =>
        have hpath : w.path ≠ d := fun hpath => h ⟨hino, w, hw, hpath⟩
        simp [Inotify.deliver, DirOp.event, hw, hpath]
  · rw [Kernel.emit, if_neg hino]
    rfl

theorem owed_eq_nil (h : Inv lookup dirs s) (hearly : s.Early) : s.owed d = [] := by
  have hwatched := h.early hearly
  have hqueue : s.kernel.queue = [] := by
    apply List.eq_nil_iff_forall_not_mem.mpr
    intro evt hevt
    obtain ⟨ino, hino, -⟩ := h.table.queue evt hevt
    simp [hwatched] at hino
  have hevents : s.notify.events = [] := by
    apply List.eq_nil_iff_forall_not_mem.mpr
    intro event hevent
    obtain ⟨-, wd, hw⟩ := h.table.events event hevent
    obtain ⟨-, -, ino, hino, -⟩ := h.table.watches wd _ hw
    simp [hwatched] at hino
  simp [System.owed, System.underWay, hqueue, hevents]

/-- A new watch makes no difference to what is under way. -/
theorem owed_watch (h : Table lookup dirs s.kernel s.notify) (hino : ino ∉ s.kernel.watched)
    (d₀ : Bytes) (pc : Pc) :
    System.owed { s with
        notify := s.notify.withWatch d₀ ((s.kernel.watch ino).wd ino)
        kernel := s.kernel.watch ino
        pc := pc } d = s.owed d := by
  have hdeliver : s.kernel.queue.filterMap
      (s.notify.withWatch d₀ ((s.kernel.watch ino).wd ino)).deliver =
        s.kernel.queue.filterMap s.notify.deliver := by
    -- what is queued has the descriptor of another watch
    apply List.filterMap_congr
    intro evt hevt
    obtain ⟨ino', hino', op, -, rfl⟩ := h.queue evt hevt
    obtain ⟨w, hw⟩ := h.watched ino' hino'
    have hne : (s.kernel.watch ino).wd ino ≠ s.kernel.wd ino' := by
      intro heq
      have := h.getElem?_wd_eq_none hino
      rw [heq, hw] at this
      cases this
    rw [Inotify.deliver, Inotify.deliver]
    show Option.map _ (s.notify.withWatch d₀ _).watches[s.kernel.wd ino']? = _
    rw [Table.withWatch_getElem? _ _ _ _ (h.getElem?_wd_eq_none hino), if_neg hne]
    rfl
  unfold System.owed System.underWay
  show List.map _ (List.filter _ (s.notify.events ++ s.kernel.queue.filterMap _)) = _
  rw [hdeliver]

theorem owed_received (s : System) (count : Nat) (pc : Pc) :
    System.owed { s with
        notify := { s.notify with
          events := s.notify.events ++ (s.kernel.queue.take count).filterMap s.notify.deliver }
        kernel := { s.kernel with queue := s.kernel.queue.drop count }
        pc := pc } d = s.owed d := by
  have hqueue : (s.kernel.queue.take count).filterMap s.notify.deliver ++
      (s.kernel.queue.drop count).filterMap s.notify.deliver =
        s.kernel.queue.filterMap s.notify.deliver := by
    rw [← List.filterMap_append, List.take_append_drop]
  unfold System.owed System.underWay
  rw [← hqueue, ← List.append_assoc]
  rfl

/-- Handling an event moves a name from what is owed to what is listed. -/
theorem account_handled (s : System) {event : InotifyEvent} {events : List InotifyEvent}
    (hevents : s.notify.events = event :: events) (pc : Pc) :
    System.account { s with
        notify := { s.notify with events }
        path := s.path.insert event.watch.path (s.path.listing event.watch.path ++ [event.name])
        pc := pc } d = s.account d := by
  have howed : s.owed d = (if event.watch.path = d then [event.name] else []) ++
      System.owed { s with notify := { s.notify with events } } d := by
    unfold System.owed System.underWay
    rw [hevents, List.cons_append, List.filter_cons]
    by_cases hpath : event.watch.path = d
    · simp only [hpath, decide_true, if_true, List.map_cons, List.singleton_append]
      rfl
    · simp only [hpath, decide_false, if_false, List.nil_append]
      rfl
  unfold System.account
  rw [howed]
  show PathMap.listing (s.path.insert _ _) d ++
    System.owed { s with notify := { s.notify with events } } d = _
  by_cases hpath : event.watch.path = d
  · rw [if_pos hpath, hpath, PathMap.listing_insert_self, List.append_assoc]
  · rw [if_neg hpath, PathMap.listing_insert_of_ne _ hpath, List.nil_append]

/-! ## What a step does to an account -/

/-- What a step can do to the account of `d`, the directory `ino`. -/
inductive AccountStep (d : Bytes) (ino : Inode) (s : System) : Action → System → Prop
  /-- nothing: the step is about something else, or moves names within the account -/
  | unchanged {a : Action} {s' : System} (hop : ∀ op, a ≠ .op ino op)
      (hfiles : s'.files ino = s.files ino) (haccount : s'.account d = s.account d)
      (hunlisted : d ∈ s'.unlisted ↔ d ∈ s.unlisted) : AccountStep d ino s a s'
  /-- `d` is listed, if it is still to be listed -/
  | listed {a : Action} {s' : System} (hop : ∀ op, a ≠ .op ino op)
      (hfiles : s'.files ino = s.files ino) (haccount : s'.account d = (s.files ino).names)
      (hunlisted : d ∈ s.unlisted) : AccountStep d ino s a s'
  /-- a file is created, and its name gets into the account if its event goes to the listing -/
  | created {op : DirOp} {s' : System} (hnew : op.name ∉ (s.files ino).names)
      (hnames : (s'.files ino).names = (s.files ino).names ++ [op.name])
      (hunlisted : d ∈ s'.unlisted ↔ d ∈ s.unlisted)
      (hreported : s.Subscribed d ino → s'.account d = s.account d ++ [op.name])
      (hlost : ¬ s.Subscribed d ino → s'.account d = s.account d) :
      AccountStep d ino s (.op ino op) s'

/-- Listing a directory puts its names into the account; nothing is owed yet. -/
theorem account_listed (h : Inv lookup dirs s) (hearly : s.Early) (d₀ : Bytes) (pc : Pc) :
    System.account { s with
        path := (updateDirectoryListing s.readDir s.path d₀).1
        pc := pc } d =
      if d₀ = d then (s.readDir d).getD (s.account d) else s.account d := by
  have howed : s.owed d = [] := owed_eq_nil h hearly
  have haccount : s.account d = s.path.listing d := by rw [System.account, howed, List.append_nil]
  show PathMap.listing (updateDirectoryListing s.readDir s.path d₀).1 d ++ s.owed d = _
  rw [howed, List.append_nil, haccount, updateDirectoryListing]
  by_cases hd : d₀ = d
  · subst hd
    rw [if_pos rfl]
    cases s.readDir d₀ with
    | none => rfl
    | some names => exact PathMap.listing_insert_self _ _ _
  · rw [if_neg hd]
    cases s.readDir d₀ with
    | none => rfl
    | some names => exact PathMap.listing_insert_of_ne _ hd _

theorem account_step (h : Inv lookup dirs s) (hlookup : lookup d = some ino) {a : Action}
    (ha : a.OnlyCreates) (hs' : s.step a = some s') : AccountStep d ino s a s' := by
  cases effect_step h.table hs' with
  | @created ino' op D happly =>
      by_cases hino : ino' = ino
      · subst hino
        obtain ⟨hnew, hnames⟩ := Directory.apply_create happly ha
        refine .created hnew ?_ Iff.rfl (fun hsub => ?_) fun hsub => ?_
        · show (Function.update s.files ino' D ino').names = _
          rw [Function.update_self, hnames]
        · unfold System.account
          rw [owed_emit_of_subscribed _ hsub, List.append_assoc]
        · unfold System.account
          rw [owed_emit_of_not_subscribed _ hsub]
      · -- `d` has a watch of its own directory at most
        have hsub : ¬ s.Subscribed d ino' := fun hsub =>
          hino (Option.some.inj ((h.table.lookup_of_subscribed hsub).symm.trans hlookup))
        refine .unchanged ?_ (Function.update_of_ne (Ne.symm hino) _ _) ?_ Iff.rfl
        · rintro op' heq
          cases heq
          exact hino rfl
        · unfold System.account
          rw [owed_emit_of_not_subscribed _ hsub]
  | @listed d₀ rest hpc =>
      have haccount := account_listed (d := d) h (by simp [System.Early, hpc]) d₀
        (.monitoring d₀ rest)
      by_cases hd : d₀ = d
      · subst hd
        have hread : s.readDir d₀ = some (s.files ino).names := by
          rw [System.readDir, h.table.lookup_eq, hlookup]
          rfl
        refine .listed (by simp) rfl ?_ (by simp [System.unlisted, hpc])
        rw [haccount, if_pos rfl, hread, Option.getD_some]
      · refine .unchanged (by simp) rfl ?_ (by simp [System.unlisted, hpc, Ne.symm hd])
        rw [haccount, if_neg hd]
  | @watched d₀ rest ino' hpc hlookup' hino =>
      refine .unchanged (by simp) rfl ?_ (by simp [System.unlisted, hpc])
      unfold System.account
      rw [owed_watch h.table hino]
  | received hpc =>
      refine .unchanged (by simp) rfl ?_ (by simp [System.unlisted, hpc])
      unfold System.account
      rw [owed_received]
  | handled hpc hevents =>
      exact .unchanged (by simp) rfl (account_handled s hevents _) (by simp [System.unlisted, hpc])
  | quiet hunlisted => exact .unchanged (by simp) rfl rfl (by rw [hunlisted])

/-! ## Whole runs -/

/-- The account has every name of the directory once, and no other; before the directory is listed
nothing is asked of it. -/
def Exact (d : Bytes) (ino : Inode) (s : System) : Prop :=
  d ∈ s.unlisted ∨ (s.account d).Perm (s.files ino).names

/-- A name of the directory is in the account no more. -/
def Missing (d : Bytes) (ino : Inode) (s : System) : Prop :=
  d ∉ s.unlisted ∧ ∃ n ∈ (s.files ino).names, n ∉ s.account d

/-- A creation in `ino` comes before its listing or is reported to it. -/
def Reported (d : Bytes) (ino : Inode) (s : System) (a : Action) : Prop :=
  ∀ op, a = .op ino op → d ∈ s.unlisted ∨ s.Subscribed d ino

/-! A creation that is reported keeps the account exact, one that is not leaves a name missing, and
a missing name stays missing. -/

theorem exact_step (h : Inv lookup dirs s) (hlookup : lookup d = some ino) {a : Action}
    (ha : a.OnlyCreates) (hs' : s.step a = some s') (hexact : Exact d ino s)
    (hreported : Reported d ino s a) : Exact d ino s' := by
  cases account_step h hlookup ha hs' with
  | unchanged hop hfiles haccount hunlisted =>
      rw [Exact, hfiles, haccount, hunlisted]
      exact hexact
  | listed hop hfiles haccount =>
      right
      rw [hfiles, haccount]
  | @created op _ hnew hnames hunlisted hin hlost =>
      rw [Exact, hunlisted]
      rcases hexact with hexact | hexact
      · exact .inl hexact
      · apply (hreported op rfl).imp_right
        intro hsubscribed
        rw [hin hsubscribed, hnames]
        exact hexact.append_right _

theorem missing_of_not_reported (h : Inv lookup dirs s) (hlookup : lookup d = some ino) {a : Action}
    (ha : a.OnlyCreates) (hs' : s.step a = some s') (hexact : Exact d ino s)
    (hreported : ¬ Reported d ino s a) : Missing d ino s' := by
  simp only [Reported, not_forall, not_or] at hreported
  obtain ⟨op, heq, hlisted, hsubscribed⟩ := hreported
  cases account_step h hlookup ha hs' with
  | unchanged hop => exact absurd heq (hop op)
  | listed hop => exact absurd heq (hop op)
  | @created op' _ hnew hnames hunlisted hin hlost =>
      -- the account was exact, and the new name did not get into it
      rw [Missing, hunlisted, hlost hsubscribed, hnames]
      refine ⟨hlisted, op'.name, by simp, fun hmem => hnew ?_⟩
      exact (hexact.resolve_left hlisted).subset hmem

theorem missing_step (h : Inv lookup dirs s) (hlookup : lookup d = some ino) {a : Action}
    (ha : a.OnlyCreates) (hs' : s.step a = some s') (hmissing : Missing d ino s) :
    Missing d ino s' := by
  obtain ⟨hlisted, n, hn, hnot⟩ := hmissing
  cases account_step h hlookup ha hs' with
  | unchanged hop hfiles haccount hunlisted =>
      rw [Missing, hfiles, haccount, hunlisted]
      exact ⟨hlisted, n, hn, hnot⟩
  | listed hop hfiles haccount hunlisted => exact absurd hunlisted hlisted
  | @created op _ hnew hnames hunlisted hin hlost =>
      -- what is created is another name, so that no event can bring `n` back
      rw [Missing, hunlisted, hnames]
      refine ⟨hlisted, n, by simp [hn], fun hmem => hnot ?_⟩
      by_cases hsubscribed : s.Subscribed d ino
      · rw [hin hsubscribed, List.mem_append, List.mem_singleton] at hmem
        exact hmem.resolve_right fun heq => hnew (heq ▸ hn)
      · rwa [hlost hsubscribed] at hmem

/-- The account of a directory tells whether every creation in it was reported: once one is not, its
name is missing for good. -/
theorem exact_or_missing (h : Inv lookup dirs s) (hlookup : lookup d = some ino)
    (hexact : Exact d ino s) {as : List Action} (has : ∀ a ∈ as, a.OnlyCreates)
    (hrun : Lib.run System.step s as = some s') :
    EachStep System.step (Reported d ino) s as ∧ Exact d ino s' ∨
      ¬ EachStep System.step (Reported d ino) s as ∧ Missing d ino s' := by
  refine (eachStep_good_or_bad Action.OnlyCreates (fun s => Inv lookup dirs s ∧ Exact d ino s)
    (fun s => Inv lookup dirs s ∧ Missing d ino s) (Reported d ino) ?_ ?_ ?_ ⟨h, hexact⟩ has
    hrun).imp (And.imp_right And.right) (And.imp_right And.right)
  · rintro s a s' ha ⟨h, hexact⟩ hreported hs'
    exact ⟨inv_step ha h hs', exact_step h hlookup ha hs' hexact hreported⟩
  · rintro s a s' ha ⟨h, hexact⟩ hreported hs'
    exact ⟨inv_step ha h hs', missing_of_not_reported h hlookup ha hs' hexact hreported⟩
  · rintro s a s' ha ⟨h, hmissing⟩ hs'
    exact ⟨inv_step ha h hs', missing_step h hlookup ha hs' hmissing⟩

/-- Nothing is left to be listed, read or handled. -/
structure System.Quiescent (s : System) : Prop where
  waiting : s.pc = .waiting
  queue : s.kernel.queue = []
  events : s.notify.events = []

theorem System.Quiescent.account_eq (h : s.Quiescent) (d : Bytes) :
    s.account d = s.path.listing d := by
  simp [System.account, System.owed, System.underWay, h.queue, h.events]

theorem System.Quiescent.not_mem_unlisted (h : s.Quiescent) (d : Bytes) : d ∉ s.unlisted := by
  simp [System.unlisted, h.waiting]

end TudorDo
