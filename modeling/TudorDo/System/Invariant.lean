import TudorDo.System

/-!
# What holds in every state

`Table` is about the watches and the events under way, `Inv` about start-up as well. Both are kept
by every step of a run whose operations are creations (`inv_step`).
-/

namespace TudorDo

open Lib PathMonitor

section Table

variable (lookup : Bytes → Option Inode) (dirs : List Bytes)

/-- The watches and the events under way, where only files have been created. -/
structure Table (k : Kernel) (n : Inotify) : Prop where
  lookup_eq : k.lookup = lookup
  fd_ne : n.fd ≠ -1
  /-- every watch is the one `run` makes for a directory of `PATH`, under its descriptor -/
  watches : ∀ (wd : Int) w, n.watches[wd]? = some w → w = pathWatch w.path wd ∧ w.path ∈ dirs ∧
    ∃ ino ∈ k.watched, lookup w.path = some ino ∧ wd = k.wd ino
  watched : ∀ ino ∈ k.watched, ∃ w, n.watches[k.wd ino]? = some w
  paths : ∀ d ∈ n.paths, ∀ ino, lookup d = some ino → ino ∈ k.watched
  queue : ∀ evt ∈ k.queue, ∃ ino ∈ k.watched, ∃ op : DirOp,
    op.kind = .create ∧ evt = op.event (k.wd ino)
  events : ∀ event ∈ n.events, Adds event ∧ ∃ wd : Int, n.watches[wd]? = some event.watch

end Table

namespace Table

variable {lookup : Bytes → Option Inode} {dirs : List Bytes} {k : Kernel} {n : Inotify}

theorem adds_of_create {evt : RawEvent} {op : DirOp} (hop : op.kind = .create) {wd : Int}
    (hevt : evt = op.event wd) {event : InotifyEvent} (hdeliver : n.deliver evt = some event) :
    Adds event ∧ n.watches[wd]? = some event.watch := by
  subst hevt
  obtain ⟨w, hw, rfl⟩ := Option.map_eq_some_iff.mp hdeliver
  refine ⟨?_, hw⟩
  have : Adds (opEvent [] 0 op) := adds_opEvent.mpr (by simp [DirOp.Removes, hop, OpKind.removes])
  exact this

theorem emit (h : Table lookup dirs k n) (ino : Inode) {op : DirOp} (hop : op.kind = .create) :
    Table lookup dirs (k.emit ino op) n := by
  unfold Kernel.emit
  split_ifs with hino
  · refine ⟨h.lookup_eq, h.fd_ne, h.watches, h.watched, h.paths, fun evt hevt => ?_, h.events⟩
    rcases List.mem_append.mp hevt with hevt | hevt
    · exact h.queue evt hevt
    · exact ⟨ino, hino, op, hop, List.mem_singleton.mp hevt⟩
  · exact h

theorem keepsWatch (h : Table lookup dirs k n) {evt : RawEvent} (hevt : evt ∈ k.queue) :
    n.KeepsWatch evt := by
  obtain ⟨ino, hino, op, -, rfl⟩ := h.queue evt hevt
  obtain ⟨w, hw⟩ := h.watched ino hino
  have hpath := (h.watches _ w hw).1
  rw [hpath] at hw
  exact keepsWatch_event hw op

theorem waitForEvents (h : Table lookup dirs k n) (count : Nat) :
    n.waitForEvents (k.queue.take count) =
      .ok { n with events := n.events ++ (k.queue.take count).filterMap n.deliver } :=
  Inotify.waitForEvents_eq fun _ hevt => h.keepsWatch (List.mem_of_mem_take hevt)

theorem read (h : Table lookup dirs k n) (count : Nat) :
    Table lookup dirs { k with queue := k.queue.drop count }
      { n with events := n.events ++ (k.queue.take count).filterMap n.deliver } := by
  refine ⟨h.lookup_eq, h.fd_ne, h.watches, h.watched, h.paths, fun evt hevt => ?_,
    fun event hevent => ?_⟩
  · exact h.queue evt (List.mem_of_mem_drop hevt)
  · rcases List.mem_append.mp hevent with hevent | hevent
    · exact h.events event hevent
    · obtain ⟨evt, hevt, hdeliver⟩ := List.mem_filterMap.mp hevent
      obtain ⟨ino, -, op, hop, heq⟩ := h.queue evt (List.mem_of_mem_take hevt)
      obtain ⟨hadds, hwatch⟩ := adds_of_create hop heq hdeliver
      exact ⟨hadds, _, hwatch⟩

theorem drop_event (h : Table lookup dirs k n) {event : InotifyEvent} {events : List InotifyEvent}
    (hevents : n.events = event :: events) : Table lookup dirs k { n with events := events } :=
  ⟨h.lookup_eq, h.fd_ne, h.watches, h.watched, h.paths, h.queue,
    fun e he => h.events e (hevents ▸ List.mem_cons_of_mem event he)⟩

theorem withWatch_getElem? (n : Inotify) (d : Bytes) (wd wd' : Int) (hnew : n.watches[wd]? = none) :
    (n.withWatch d wd).watches[wd']? = if wd = wd' then some (pathWatch d wd) else n.watches[wd']? := by
  have hmem : wd ∉ n.watches := fun h => by
    rw [Std.ExtTreeMap.getElem?_eq_some_getElem h] at hnew
    cases hnew
  simp only [Inotify.withWatch, Std.ExtTreeMap.getElem?_insertIfNew, hmem, not_false_eq_true,
    and_true, Std.LawfulEqCmp.compare_eq_iff_eq]

/-- The descriptor of a directory that is not watched is free. -/
theorem getElem?_wd_eq_none (h : Table lookup dirs k n) {ino : Inode} (hino : ino ∉ k.watched) :
    n.watches[(k.watch ino).wd ino]? = none := by
  cases hw : n.watches[(k.watch ino).wd ino]? with
  | none => rfl
  | some w =>
      obtain ⟨-, -, ino', hino', -, hwd⟩ := h.watches _ w hw
      rw [← Kernel.wd_watch hino' ino] at hwd
      exact absurd (Kernel.wd_injective (by simp [Kernel.watch]) hwd ▸ hino') hino

theorem watch (h : Table lookup dirs k n) {d : Bytes} (hd : d ∈ dirs) {ino : Inode}
    (hlookup : lookup d = some ino) (hino : ino ∉ k.watched) :
    Table lookup dirs (k.watch ino) (n.withWatch d ((k.watch ino).wd ino)) := by
  have hget := fun wd' => withWatch_getElem? n d _ wd' (h.getElem?_wd_eq_none hino)
  have hmem : ∀ {ino'}, ino' ∈ k.watched → ino' ∈ (k.watch ino).watched :=
    fun h => List.mem_append_left _ h
  have hself : ino ∈ (k.watch ino).watched := by simp [Kernel.watch]
  refine ⟨h.lookup_eq, h.fd_ne, fun wd' w hw => ?_, fun ino' hino' => ?_, fun d' hd' ino' h' => ?_,
    fun evt hevt => ?_, fun event hevent => ?_⟩
  · rw [hget] at hw
    split_ifs at hw with heq
    · cases hw
      subst heq
      exact ⟨rfl, hd, ino, hself, hlookup, rfl⟩
    · obtain ⟨hw, hdirs, ino', hino', hlookup', hwd⟩ := h.watches wd' w hw
      exact ⟨hw, hdirs, ino', hmem hino', hlookup', by rw [hwd, Kernel.wd_watch hino']⟩
  · rw [hget]
    split_ifs with heq
    · exact ⟨_, rfl⟩
    · rcases List.mem_append.mp hino' with hino' | hino'
      · rw [Kernel.wd_watch hino']
        exact h.watched ino' hino'
      · exact absurd (List.mem_singleton.mp hino' ▸ rfl) heq
  · rcases Std.ExtTreeMap.mem_insertIfNew.mp hd' with heq | hd'
    · obtain rfl : d = d' := Std.LawfulEqCmp.compare_eq_iff_eq.mp heq
      obtain rfl : ino = ino' := Option.some.inj (hlookup.symm.trans h')
      exact hself
    · exact hmem (h.paths d' hd' ino' h')
  · obtain ⟨ino', hino', op, hop, heq⟩ := h.queue evt hevt
    exact ⟨ino', hmem hino', op, hop, by rw [heq, Kernel.wd_watch hino']⟩
  · obtain ⟨hadds, wd', hw⟩ := h.events event hevent
    refine ⟨hadds, wd', ?_⟩
    rw [hget, if_neg]
    · exact hw
    · rintro rfl
      rw [h.getElem?_wd_eq_none hino] at hw
      cases hw

/-- What one `Add` does: nothing where there is nothing to watch or the directory is watched
already, one more watch elsewhere. -/
theorem addWatch_cases (h : Table lookup dirs k n) (d : Bytes) :
    (addWatch n k d = (n, k) ∧ ∀ ino, lookup d = some ino → ino ∈ k.watched) ∨
    ∃ ino, lookup d = some ino ∧ ino ∉ k.watched ∧
      addWatch n k d = (n.withWatch d ((k.watch ino).wd ino), k.watch ino) := by
  have hlookup := h.lookup_eq
  subst hlookup
  have hwatches := fun wd w hw => (h.watches wd w hw).2.2
  rcases TudorDo.addWatch_cases h.fd_ne hwatches h.watched d with ⟨heq, hd | hd⟩ | hnew
  · exact .inl ⟨heq, h.paths d hd⟩
  · exact .inl ⟨heq, hd⟩
  · exact .inr hnew

end Table

/-! ## What one step can do -/

section Steps

variable (lookup : Bytes → Option Inode)

/-- The steps the program and the file system can take, by what they do to listings and events. -/
inductive Effect (s : System) : Action → System → Prop
  | created {ino : Inode} {op : DirOp} {D : Directory} (happly : (s.files ino).apply op = some D) :
      Effect s (.op ino op)
        { s with files := Function.update s.files ino D, kernel := s.kernel.emit ino op }
  | listed {d : Bytes} {rest : List Bytes} (hpc : s.pc = .listing (d :: rest)) :
      Effect s .prog
        { s with path := (updateDirectoryListing s.readDir s.path d).1, pc := .monitoring d rest }
  | watched {d : Bytes} {rest : List Bytes} {ino : Inode} (hpc : s.pc = .adding (d :: rest))
      (hlookup : lookup d = some ino) (hino : ino ∉ s.kernel.watched) :
      Effect s .prog
        { s with
          notify := s.notify.withWatch d ((s.kernel.watch ino).wd ino)
          kernel := s.kernel.watch ino
          pc := .adding rest }
  | received {count : Nat} (hpc : s.pc = .waiting) :
      Effect s (.read count)
        { s with
          notify := { s.notify with
            events := s.notify.events ++ (s.kernel.queue.take count).filterMap s.notify.deliver }
          kernel := { s.kernel with queue := s.kernel.queue.drop count }
          pc := .handling
            (s.notify.events ++ (s.kernel.queue.take count).filterMap s.notify.deliver).length }
  | handled {event : InotifyEvent} {events : List InotifyEvent} {count : Nat}
      (hpc : s.pc = .handling (count + 1)) (hevents : s.notify.events = event :: events) :
      Effect s .prog
        { s with
          notify := { s.notify with events }
          path := s.path.insert event.watch.path
            (s.path.listing event.watch.path ++ [event.name])
          pc := .handling count }
  /-- start-up goes on, or the thread does, and nothing else changes -/
  | quiet {pc : Pc} {watchlist : List Bytes}
      (hunlisted : System.unlisted { s with pc, watchlist } = s.unlisted)
      (hearly : System.Early { s with pc, watchlist } → s.Early)
      (hunwatched : ∀ d ∈ System.unwatched { s with pc, watchlist }, d ∈ s.unwatched)
      (hwatched : ∀ d ∈ s.unwatched, d ∈ System.unwatched { s with pc, watchlist } ∨
        ∀ ino, lookup d = some ino → ino ∈ s.kernel.watched) :
      Effect s .prog { s with pc, watchlist }

variable {lookup} {dirs : List Bytes} {s s' : System}

theorem effect_progStep (h : Table lookup dirs s.kernel s.notify) (hs' : s.progStep = some s') :
    Effect lookup s .prog s' := by
  unfold System.progStep at hs'
  cases hpc : s.pc with
  | listing rest =>
      cases rest with
      | nil =>
          simp only [hpc, Option.some.injEq] at hs'
          subst hs'
          refine .quiet ?_ ?_ ?_ ?_ <;> simp [System.unlisted, System.Early, System.unwatched, hpc]
          exact fun d hd => .inl hd
      | cons d rest =>
          simp only [hpc, Option.some.injEq] at hs'
          subst hs'
          exact .listed hpc
  | monitoring d rest =>
      simp only [hpc, Option.some.injEq, monitorDirectory] at hs'
      subst hs'
      refine .quiet ?_ ?_ ?_ ?_
      · simp [System.unlisted, hpc]
      · simp [System.Early, hpc]
      · intro d' hd'
        simp only [System.unwatched, hpc] at hd' ⊢
        split_ifs at hd'
        · simpa using hd'
        · exact List.mem_append.mpr ((List.mem_append.mp hd').imp_right (List.mem_cons_of_mem d))
      · intro d' hd'
        simp only [System.unwatched, hpc] at hd' ⊢
        split_ifs with hdir
        · exact .inl (by simpa using hd')
        · by_cases heq : d' = d
          · -- what is not put on the watch list is no directory
            right
            intro ino hino
            simp [System.readDir, h.lookup_eq, ← heq, hino] at hdir
          · left
            simpa [heq] using hd'
  | starting =>
      simp only [hpc, Option.some.injEq] at hs'
      subst hs'
      refine .quiet ?_ ?_ ?_ ?_ <;> simp [System.unlisted, System.Early, System.unwatched, hpc]
      exact fun d hd => .inl hd
  | adding rest =>
      cases rest with
      | nil =>
          simp only [hpc, Option.some.injEq] at hs'
          subst hs'
          refine .quiet ?_ ?_ ?_ ?_ <;> simp [System.unlisted, System.Early, System.unwatched, hpc]
      | cons d rest =>
          simp only [hpc, Option.some.injEq] at hs'
          subst hs'
          rcases h.addWatch_cases d with ⟨heq, hd⟩ | ⟨ino, hlookup, hino, heq⟩
          · rw [heq]
            refine .quiet ?_ ?_ ?_ ?_
            · simp [System.unlisted, hpc]
            · simp [System.Early]
            · intro d' hd'
              simp only [System.unwatched, hpc] at hd' ⊢
              exact List.mem_cons_of_mem d hd'
            · intro d' hd'
              simp only [System.unwatched, hpc] at hd' ⊢
              rcases List.mem_cons.mp hd' with rfl | hd'
              · exact .inr hd
              · exact .inl hd'
          · rw [heq]
            exact .watched hpc hlookup hino
  | waiting => simp [hpc] at hs'
  | handling count =>
      cases count with
      | zero =>
          simp only [hpc, Option.some.injEq] at hs'
          subst hs'
          refine .quiet ?_ ?_ ?_ ?_ <;> simp [System.unlisted, System.Early, System.unwatched, hpc]
      | succ count =>
          cases hevents : s.notify.events with
          | nil =>
              simp only [hpc, Loop.next, Inotify.getEvent, hevents, Option.map_some,
                Option.some.injEq] at hs'
              subst hs'
              refine .quiet ?_ ?_ ?_ ?_ <;>
                simp [System.unlisted, System.Early, System.unwatched, hpc]
          | cons event events =>
              -- no erase is ever tried: every event under way adds its name
              have hadds := (h.events event (by simp [hevents])).1
              simp only [hpc, Loop.next, Inotify.getEvent, hevents, handleEvent_of_adds hadds,
                Option.map_some, Option.some.injEq] at hs'
              subst hs'
              exact .handled hpc hevents
  | stopped => simp [hpc] at hs'

/-- Where files are only created, a step is one of these. -/
theorem effect_step (h : Table lookup dirs s.kernel s.notify) {a : Action} (hs' : s.step a = some s') :
    Effect lookup s a s' := by
  cases a with
  | op ino op =>
      obtain ⟨D, hD, rfl⟩ := Option.map_eq_some_iff.mp hs'
      exact .created hD
  | prog => exact effect_progStep h hs'
  | read count =>
      simp only [System.step, h.waitForEvents count, Option.ite_none_right_eq_some,
        Option.some.injEq] at hs'
      obtain ⟨⟨hpc, -, -⟩, rfl⟩ := hs'
      exact .received hpc

end Steps

/-! ## The invariant -/

section Invariant

variable (lookup : Bytes → Option Inode) (dirs : List Bytes)

/-- The directories of `PATH` that exist are listed and watched, or still to be. -/
structure Inv (s : System) : Prop where
  table : Table lookup dirs s.kernel s.notify
  early : s.Early → s.kernel.watched = []
  keys : ∀ d ∈ s.path, d ∈ dirs ∧ (lookup d).isSome
  listed : ∀ d ∈ dirs, (lookup d).isSome → d ∈ s.unlisted ∨ d ∈ s.path
  unwatched : ∀ d ∈ s.unwatched, d ∈ dirs
  watched : ∀ d ∈ dirs, ∀ ino, lookup d = some ino → d ∈ s.unwatched ∨ ino ∈ s.kernel.watched

variable {lookup dirs} {s s' : System}

theorem mem_insert_iff {m : PathMap} {d d' : Bytes} {l : List Bytes} :
    d' ∈ m.insert d l ↔ d = d' ∨ d' ∈ m := by
  rw [Std.ExtTreeMap.mem_insert, Std.LawfulEqCmp.compare_eq_iff_eq]

/-- Listing a directory makes it a key, if it is one. -/
theorem mem_updateDirectoryListing (h : s.kernel.lookup = lookup) (d : Bytes) {d' : Bytes} :
    d' ∈ (updateDirectoryListing s.readDir s.path d).1 ↔
      (d = d' ∧ (lookup d').isSome) ∨ d' ∈ s.path := by
  unfold updateDirectoryListing System.readDir
  rw [h]
  cases hlookup : lookup d with
  | none =>
      constructor
      · exact .inr
      · rintro (⟨rfl, hsome⟩ | hd')
        · simp [hlookup] at hsome
        · exact hd'
  | some ino =>
      show d' ∈ s.path.insert d _ ↔ _
      rw [mem_insert_iff]
      refine or_congr_left ⟨fun heq => ⟨heq, ?_⟩, And.left⟩
      rw [← heq, hlookup]
      rfl

theorem table_init (fd : Nat) : Table lookup dirs ⟨lookup, [], []⟩ (Inotify.new fd) := by
  refine ⟨rfl, ?_, ?_, ?_, ?_, ?_, ?_⟩
  · show (fd : Int) ≠ -1
    omega
  all_goals simp [Inotify.new]

theorem inv_init (files : Inode → Directory) (fd : Nat) :
    Inv lookup dirs (System.init lookup files dirs fd) := by
  refine ⟨table_init fd, fun _ => rfl, by simp [System.init], fun d hd _ => ?_, fun d hd => ?_,
    fun d hd _ _ => ?_⟩
  · have hne : dirs ≠ [] := List.ne_nil_of_mem hd
    exact .inl (by simpa [System.init, System.unlisted, hne] using hd)
  · by_cases hne : dirs = []
    · simp [System.init, System.unwatched, hne] at hd
    · simpa [System.init, System.unwatched, hne] using hd
  · have hne : dirs ≠ [] := List.ne_nil_of_mem hd
    exact .inl (by simpa [System.init, System.unwatched, hne] using hd)

theorem Kernel.watched_emit (k : Kernel) (ino : Inode) (op : DirOp) :
    (k.emit ino op).watched = k.watched := by
  unfold Kernel.emit
  split_ifs <;> rfl

theorem inv_step {a : Action} (ha : a.OnlyCreates) (h : Inv lookup dirs s)
    (hs' : s.step a = some s') : Inv lookup dirs s' := by
  cases effect_step h.table hs' with
  | created happly =>
      refine ⟨h.table.emit _ ha, fun he => (Kernel.watched_emit _ _ _).trans (h.early he), h.keys,
        h.listed, h.unwatched, fun d hd ino hino => ?_⟩
      rw [Kernel.watched_emit]
      exact h.watched d hd ino hino
  | @listed d rest hpc =>
      have hd : d ∈ dirs := h.unwatched d (by simp [System.unwatched, hpc])
      have hunwatched : ∀ d', d' ∈ System.unwatched { s with
          path := (updateDirectoryListing s.readDir s.path d).1, pc := .monitoring d rest } ↔
          d' ∈ s.unwatched := by
        simp [System.unwatched, hpc]
      have hpath : ∀ d', d' ∈ (updateDirectoryListing s.readDir s.path d).1 ↔
          (d = d' ∧ (lookup d').isSome) ∨ d' ∈ s.path :=
        fun d' => mem_updateDirectoryListing h.table.lookup_eq d
      refine ⟨h.table, fun _ => h.early (by simp [System.Early, hpc]), fun d' hd' => ?_,
        fun d' hd' hdir => ?_, fun d' hd' => h.unwatched d' ((hunwatched d').mp hd'),
        fun d' hd' ino hino => ?_⟩
      · rcases (hpath d').mp hd' with ⟨rfl, hsome⟩ | hd'
        · exact ⟨hd, hsome⟩
        · exact h.keys d' hd'
      · -- the directory taken off the list is the one that is a key now
        rcases h.listed d' hd' hdir with hd' | hd'
        · simp only [System.unlisted, hpc] at hd' ⊢
          rcases List.mem_cons.mp hd' with rfl | hd'
          · exact .inr ((hpath _).mpr (.inl ⟨rfl, hdir⟩))
          · exact .inl hd'
        · exact .inr ((hpath d').mpr (.inr hd'))
      · rw [hunwatched]
        exact h.watched d' hd' ino hino
  | @watched d rest ino hpc hlookup hino =>
      have hd : d ∈ dirs := h.unwatched d (by simp [System.unwatched, hpc])
      refine ⟨h.table.watch hd hlookup hino, by simp [System.Early], h.keys, fun d' hd' hdir => ?_,
        fun d' hd' => h.unwatched d' ?_, fun d' hd' ino' hino' => ?_⟩
      · simpa [System.unlisted, hpc] using h.listed d' hd' hdir
      · simp only [System.unwatched, hpc] at hd' ⊢
        exact List.mem_cons_of_mem d hd'
      · rcases h.watched d' hd' ino' hino' with hd' | hwatched
        · simp only [System.unwatched, hpc] at hd' ⊢
          rcases List.mem_cons.mp hd' with rfl | hd'
          · right
            simp [Kernel.watch, Option.some.inj (hino'.symm.trans hlookup)]
          · exact .inl hd'
        · exact .inr (List.mem_append_left _ hwatched)
  | received hpc =>
      refine ⟨h.table.read _, by simp [System.Early], h.keys, fun d hd hdir => ?_,
        by simp [System.unwatched], fun d hd ino hino => ?_⟩
      · simpa [System.unlisted, hpc] using h.listed d hd hdir
      · simpa [System.unwatched, hpc] using h.watched d hd ino hino
  | @handled event events count hpc hevents =>
      -- `operator[]` makes no new key: the event comes from a watch, and the watch from `PATH`
      have hkey : event.watch.path ∈ dirs ∧ (lookup event.watch.path).isSome := by
        obtain ⟨wd, hw⟩ := (h.table.events event (by simp [hevents])).2
        obtain ⟨-, hd, ino, -, hlookup, -⟩ := h.table.watches wd _ hw
        exact ⟨hd, by rw [hlookup]; rfl⟩
      refine ⟨h.table.drop_event hevents, by simp [System.Early], fun d hd => ?_,
        fun d hd hdir => ?_, by simp [System.unwatched], fun d hd ino hino => ?_⟩
      · rcases mem_insert_iff.mp hd with rfl | hd
        · exact hkey
        · exact h.keys d hd
      · right
        refine mem_insert_iff.mpr (.inr ?_)
        simpa [System.unlisted, hpc] using h.listed d hd hdir
      · simpa [System.unwatched, hpc] using h.watched d hd ino hino
  | quiet hunlisted hearly hunwatched hwatched =>
      refine ⟨h.table, fun he => h.early (hearly he), h.keys, fun d hd hdir => ?_,
        fun d hd => h.unwatched d (hunwatched d hd), fun d hd ino hino => ?_⟩
      · rw [hunlisted]
        exact h.listed d hd hdir
      · rcases h.watched d hd ino hino with hd | hino'
        · exact (hwatched d hd).imp_right fun h => h ino hino
        · exact .inr hino'

end Invariant

end TudorDo
