import TudorDo.Inotify.Consistency

/-!
# What reads and additions leave alone

`Reads` says what `WaitForEvents` cannot change, and where the events it queues come from. `Spent` is
about descriptors: what the kernel has given out and taken back it does not give out again.
-/

namespace TudorDo.Objects

open Lib

/-! ## What a read does -/

variable {s s' s'' : State} {p : Ptr}

theorem modify_path {f : Watch → Watch} (hf : ∀ w : Watch, (f w).path = w.path) (s : State) (p q : Ptr) :
    ((s.modify p f).heap q).path = (s.heap q).path := by
  show (Function.update s.heap p (f (s.heap p)) q).path = _
  by_cases hq : q = p
  · rw [hq, Function.update_self]
    exact hf _
  · rw [Function.update_of_ne hq]

/-- What the loop of `WaitForEvents` leaves as it is, and where the events it queues come from. -/
structure Reads (s s' : State) : Prop where
  paths : s'.paths = s.paths
  path : ∀ q, (s'.heap q).path = (s.heap q).path
  watches : ∀ (wd : Int) q, s'.watches[wd]? = some q → s.watches[wd]? = some q
  events : ∀ event ∈ s'.events, event ∈ s.events ∨ ∃ wd : Int, s.watches[wd]? = some event.watch

namespace Reads

theorem refl (s : State) : Reads s s :=
  ⟨rfl, fun _ => rfl, fun _ _ h => h, fun _ h => .inl h⟩

theorem trans (h : Reads s s') (h' : Reads s' s'') : Reads s s'' := by
  refine ⟨h'.paths.trans h.paths, fun q => (h'.path q).trans (h.path q),
    fun wd q hq => h.watches wd q (h'.watches wd q hq), fun event hevent => ?_⟩
  rcases h'.events event hevent with hevent | ⟨wd, hwd⟩
  · exact h.events event hevent
  · exact .inr ⟨wd, h.watches wd _ hwd⟩

theorem push (h : Reads s s') {event : Event} {wd : Int} (hwatch : s.watches[wd]? = some event.watch) :
    Reads s (s'.push event) := by
  refine ⟨h.paths, h.path, h.watches, fun event' hevent => ?_⟩
  rcases List.mem_append.mp hevent with hevent | hevent
  · exact h.events event' hevent
  · rw [List.mem_singleton.mp hevent]
    exact .inr ⟨wd, hwatch⟩

theorem disable {r : Except InotifyException Unit} (h : s.disable p = some (r, s')) : Reads s s' := by
  unfold State.disable at h
  simp only at h
  split_ifs at h
  · cases howner : (s.heap p).owner with
    | unset => simp [howner] at h
    | null =>
        simp only [howner, Option.some.injEq, Prod.mk.injEq] at h
        obtain ⟨-, rfl⟩ := h
        refine ⟨rfl, fun q => ?_, fun _ _ h => h, fun _ h => .inl h⟩
        rw [modify_path]
        exact fun _ => rfl
    | inotify =>
        simp only [howner, Option.some.injEq, Prod.mk.injEq] at h
        obtain ⟨-, rfl⟩ := h
        refine ⟨rfl, fun q => ?_, fun wd q hq => ?_, fun _ h => .inl h⟩
        · rw [modify_path]
          exact fun _ => rfl
        · change (s.watches.erase (s.heap p).wd)[wd]? = some q at hq
          rw [getElem?_erase_eq] at hq
          split_ifs at hq
          exact hq
  · cases h
    exact refl s

theorem receive {evt : RawEvent} {r : Except InotifyException Unit}
    (h : s.receive evt = some (r, s')) : Reads s s' := by
  unfold State.receive at h
  cases hwatch : s.watches[evt.wd]? with
  | none =>
      simp only [hwatch, Option.some.injEq, Prod.mk.injEq] at h
      exact h.2 ▸ refl s
  | some p =>
      simp only [hwatch] at h
      split_ifs at h
      · obtain ⟨⟨r', s₁⟩, hdisable, h⟩ := Option.map_eq_some_iff.mp h
        cases r' with
        | error e =>
            cases h
            exact disable hdisable
        | ok _ =>
            cases h
            exact (disable hdisable).push hwatch
      · cases h
        exact (refl s).push hwatch

theorem receiveAll {buf : List RawEvent} {r : Except InotifyException Unit}
    (h : s.receiveAll buf = some (r, s')) : Reads s s' := by
  induction buf generalizing s with
  | nil =>
      cases h
      exact refl _
  | cons evt buf ih =>
      obtain ⟨⟨r', s₁⟩, hreceive, h⟩ := Option.bind_eq_some_iff.mp h
      cases r' with
      | error e =>
          cases h
          exact receive hreceive
      | ok _ => exact (receive hreceive).trans (ih h)

theorem waitForEvents {count : Nat} {r : Except InotifyException Unit}
    (h : s.waitForEvents count = some (r, s')) : Reads s s' := by
  unfold State.waitForEvents at h
  split_ifs at h
  · cases h
    exact refl s
  · have hreads := receiveAll h
    exact ⟨hreads.paths, hreads.path, hreads.watches, hreads.events⟩

end Reads

/-! ## Descriptors that are given up -/

namespace Instance

variable {k k' : Instance} {wd : Int}

/-- The descriptor was given out, and its mark is gone. -/
def Spent (k : Instance) (wd : Int) : Prop := wd < k.next ∧ ¬ k.Live wd

theorem Spent.of_marks (h : k.Spent wd) (hnext : k.next ≤ k'.next)
    (hmarks : ∀ m' ∈ k'.marks, k.next ≤ m'.wd ∨ ∃ m ∈ k.marks, m.wd = m'.wd) : k'.Spent wd := by
  refine ⟨Int.lt_of_lt_of_le h.1 hnext, ?_⟩
  rintro ⟨m', hm', rfl⟩
  rcases hmarks m' hm' with hle | ⟨m, hm, heq⟩
  · exact absurd h.1 (Int.not_lt.mpr hle)
  · exact h.2 ⟨m, hm, heq⟩

theorem Spent.unmark (h : k.Spent wd) (wd' : Int) : (k.unmark wd').Spent wd :=
  h.of_marks (Int.le_refl _) fun m hm => .inr ⟨m, (List.mem_filter.mp hm).1, rfl⟩

theorem Spent.fire (h : k.Spent wd) (m : Mark) (evt : RawEvent) : (k.fire m evt).Spent wd := by
  unfold Instance.fire
  split_ifs
  · exact Spent.unmark h m.wd
  · exact h

/-- A descriptor is never given out again. -/
theorem Spent.addWatch (h : k.Spent wd) (path : Bytes) (mask : UInt32) :
    (k.addWatch path mask).2.Spent wd := by
  unfold Instance.addWatch
  cases k.resolve path mask with
  | error err => exact h
  | ok ino =>
      cases hfind : k.marks.find? (·.ino = ino) with
      | some m =>
          simp only [hfind]
          refine h.of_marks (Int.le_refl _) fun m' hm' => ?_
          obtain ⟨m'', hm'', rfl⟩ := List.mem_map.mp hm'
          refine .inr ⟨m'', hm'', ?_⟩
          split_ifs <;> rfl
      | none =>
          simp only [hfind]
          refine h.of_marks (Int.le_of_lt (Int.lt_succ _)) fun m' hm' => ?_
          rcases List.mem_append.mp hm' with hm' | hm'
          · exact .inr ⟨m', hm', rfl⟩
          · rw [List.mem_singleton.mp hm']
            exact .inl (Int.le_refl _)

end Instance

/-- What the kernel is asked for a path is kept, and no descriptor comes back. -/
theorem spent_inotifyAddWatch (s : State) (path : Bytes) (mask : UInt32) :
    ∃ k, (s.inotifyAddWatch path mask).2 = { s with kernel := k } ∧
      ∀ wd, s.kernel.Spent wd → k.Spent wd := by
  unfold State.inotifyAddWatch
  split_ifs
  · exact ⟨s.kernel, rfl, fun _ h => h⟩
  · exact ⟨_, rfl, fun _ h => h.addWatch path mask⟩

end TudorDo.Objects
