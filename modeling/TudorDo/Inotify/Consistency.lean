import TudorDo.Inotify.Agree

/-!
# The wrapper through whole runs

Neither `SetEnabled` nor `Remove` looks whether the maps and the objects will still agree: the first
takes a descriptor that another watch has (`Add` checks for that), the second forgets the path of a
watch that is not its own. `agree_iff` says that nothing else can go wrong, in any run.

In such a run `WaitForEvents` never throws out of its loop, and once everything queued is read the
kernel has every watch the wrapper counts as enabled: `waitForEvents_syncs`.
-/

namespace TudorDo.Objects

open Lib

variable {s s' : State} {p q : Ptr}

/-! ## Call by call -/

theorem effect_kernel {k : Instance} (hkernel : s.kernel.Keeps k) :
    Effect s { s with kernel := k } :=
  .none rfl rfl rfl hkernel

theorem keeps_inotifyAddWatch (s : State) (path : Bytes) (mask : UInt32) :
    ∃ k, (s.inotifyAddWatch path mask).2 = { s with kernel := k } ∧ s.kernel.Keeps k := by
  unfold State.inotifyAddWatch
  split_ifs
  · exact ⟨s.kernel, rfl, .refl _⟩
  · exact ⟨_, rfl, s.kernel.keeps_addWatch path mask⟩

theorem keeps_inotifyRmWatch (s : State) (wd : Int) :
    ∃ k, (s.inotifyRmWatch wd).2 = { s with kernel := k } ∧ s.kernel.Keeps k := by
  unfold State.inotifyRmWatch
  split_ifs
  · exact ⟨s.kernel, rfl, .refl _⟩
  · exact ⟨_, rfl, s.kernel.keeps_rmWatch wd⟩

/-- What the kernel returns for a path, if it does. -/
theorem inotifyAddWatch_ok (h : Sound s) {path : Bytes} {mask : UInt32} {wd : Int} {s₁ : State}
    (hadd : s.inotifyAddWatch path mask = (.ok wd, s₁)) :
    s.fd ≠ -1 ∧ (s.kernel.addWatch path mask).1 = .ok wd ∧
      ∃ k, s₁ = { s with kernel := k } ∧ s.kernel.Keeps k ∧ 0 < wd ∧ wd < k.next ∧ k.Live wd := by
  unfold State.inotifyAddWatch at hadd
  split_ifs at hadd with hfd
  · cases hadd
  · obtain ⟨hok, rfl⟩ := Prod.mk.inj hadd
    have hkeeps := s.kernel.keeps_addWatch path mask
    have hlive := (Instance.addWatch_eq_ok hok).1
    obtain ⟨m, hm, rfl⟩ := hlive
    have hmarks := (hkeeps.sound h.kernel).marks m hm
    exact ⟨hfd, hok, _, rfl, hkeeps, hmarks.1, hmarks.2, m, hm, rfl⟩

/-- `Add` keeps the maps in order whatever it is given. -/
theorem effect_add (h : Agree s) (hsound : Sound s) (p : Ptr) : Effect s (s.add p).2 := by
  unfold State.add
  simp only
  split_ifs with hfd hpath henabled
  · exact effect_kernel (.refl _)
  · exact effect_kernel (.refl _)
  · have hfree := Std.ExtTreeMap.getElem?_eq_none hpath
    cases hadd : s.inotifyAddWatch (s.heap p).path (s.heap p).mask with
    | mk r s₁ =>
        cases r with
        | error err =>
            obtain ⟨k, hk, hkeeps⟩ := keeps_inotifyAddWatch s (s.heap p).path (s.heap p).mask
            rw [hadd] at hk
            subst hk
            exact effect_kernel hkeeps
        | ok wd =>
            obtain ⟨-, -, k, rfl, hkeeps, hpos, hnext, hlive⟩ := inotifyAddWatch_ok hsound hadd
            simp only
            cases hwatch : s.watches[wd]? with
            | some q =>
                -- the old watch is asked for again; nothing else changes
                simp only
                obtain ⟨k', hk', hkeeps'⟩ := keeps_inotifyAddWatch { s with kernel := k }
                  (s.heap q).path (s.heap q).mask
                cases hagain : State.inotifyAddWatch { s with kernel := k } (s.heap q).path
                    (s.heap q).mask with
                | mk r s₂ =>
                    rw [hagain] at hk'
                    subst hk'
                    cases r with
                    | error err => exact effect_kernel (hkeeps.trans hkeeps')
                    | ok wd' => exact effect_kernel (hkeeps.trans hkeeps')
            | none =>
                simp only
                have hne : wd ≠ -1 := by omega
                apply Effect.joined p { s.heap p with wd, owner := .inotify } rfl rfl hfree
                · exact fun _ => ⟨hwatch, hpos, hnext, hlive⟩
                · exact iff_of_true henabled hne
                · funext q
                  by_cases hq : q = p
                  · subst hq
                    simp [State.attach, State.modify]
                  · simp [State.attach, State.modify, Function.update_of_ne hq]
                · simp [State.attach, State.modify]
                · intro wd'
                  show (s.watches.insertIfNew wd p)[wd']? = _
                  rw [getElem?_insertIfNew_of_none hwatch]
                  by_cases heq : wd = wd'
                  · subst heq
                    simp [hne]
                  · simp [heq, Ne.symm heq]
                · exact hkeeps
  · have hfree := Std.ExtTreeMap.getElem?_eq_none hpath
    have hoff := h.wd_of_not_owned (h.not_owned hfree)
    apply Effect.joined p { s.heap p with owner := .inotify } rfl rfl hfree
    · exact fun hne => absurd hoff hne
    · exact iff_of_false henabled fun hne => hne hoff
    · rfl
    · rfl
    · intro wd
      show s.watches[wd]? = if wd = (s.heap p).wd ∧ wd ≠ -1 then some p else _
      rw [hoff, if_neg fun heq => heq.2 heq.1]
    · exact .refl _

/-- `Remove`, of a watch of the wrapper or of one whose path is none of its. -/
theorem effect_remove (h : Agree s)
    (hp : s.fd = -1 ∨ (s.heap p).owner = .inotify ∨ s.paths[(s.heap p).path]? = none) :
    Effect s (s.remove p).2 := by
  unfold State.remove
  simp only
  split_ifs with hfd hwd
  · exact effect_kernel (.refl _)
  · have howner := (h.watches _ p (h.described p hwd)).1
    cases hrm : s.inotifyRmWatch (s.heap p).wd with
    | mk r s₁ =>
        obtain ⟨k, hk, hkeeps⟩ := keeps_inotifyRmWatch s (s.heap p).wd
        rw [hrm] at hk
        subst hk
        cases r with
        | error err => exact effect_kernel hkeeps
        | ok _ =>
            apply Effect.left p howner
            · funext q
              by_cases hq : q = p
              · subst hq
                simp [State.detach, State.modify]
              · simp [State.detach, State.modify, Function.update_of_ne hq]
            · simp [State.detach, State.modify]
            · intro wd
              show (s.watches.erase (s.heap p).wd)[wd]? = _
              rw [getElem?_erase_eq]
              simp only [eq_comm]
            · exact hkeeps
  · -- a watch without a descriptor only loses its path
    have hwd := not_not.mp hwd
    rcases hp.resolve_left hfd with howner | hfree
    · apply Effect.left p howner
      · show Function.update s.heap p { s.heap p with owner := .null } = _
        rw [← hwd]
      · rfl
      · intro wd
        show s.watches[wd]? = _
        rw [hwd]
        split_ifs with heq
        · rw [heq]
          exact h.no_watch_without_wd
        · rfl
      · exact .refl _
    · have howner := h.not_owned hfree
      have herase : s.paths.erase (s.heap p).path = s.paths := by
        apply Std.ExtTreeMap.ext_getElem?
        intro path
        rw [getElem?_erase_eq]
        split_ifs with heq
        · rw [← heq, hfree]
        · rfl
      apply Effect.touched p { s.heap p with owner := .null } rfl rfl
      · exact iff_of_false (by simp) howner
      · intro hnull
        cases hnull
      · rfl
      · exact herase
      · rfl
      · exact .refl _

/-- `SetMask` of any watch. -/
theorem effect_setMask (h : Agree s) (p : Ptr) (mask : UInt32) :
    ∃ r s', s.setMask p mask = some (r, s') ∧ Effect s s' := by
  have hdone : ∀ k, s.kernel.Keeps k → Effect s
      (State.modify { s with kernel := k } p fun w => { w with mask }) := fun k hkeeps =>
    .touched p { s.heap p with mask } rfl rfl Iff.rfl (fun _ => rfl) rfl rfl rfl hkeeps
  unfold State.setMask
  simp only
  split_ifs with hwd
  · have howner := (h.watches _ p (h.described p hwd)).1
    cases hadd : s.inotifyAddWatch (s.heap p).path mask with
    | mk r s₁ =>
        obtain ⟨k, hk, hkeeps⟩ := keeps_inotifyAddWatch s (s.heap p).path mask
        rw [hadd] at hk
        subst hk
        cases r with
        | error err => exact ⟨_, _, by simp only [howner]; rfl, effect_kernel hkeeps⟩
        | ok wd =>
            by_cases hsame : wd ≠ (s.heap p).wd
            · exact ⟨_, _, by simp only [howner, if_pos hsame]; rfl, effect_kernel hkeeps⟩
            · exact ⟨_, _, by simp only [howner, if_neg hsame]; rfl, hdone k hkeeps⟩
  · exact ⟨_, _, rfl, hdone s.kernel (.refl _)⟩

/-- The file a watch names has a mark whose descriptor another watch has. -/
def Collides (s : State) (p : Ptr) : Prop :=
  s.fd ≠ -1 ∧ ∃ m ∈ s.kernel.marks, m.wd ∈ s.watches ∧
    s.kernel.resolve (s.heap p).path (s.heap p).mask = .ok m.ino

theorem not_mem_of_not_collides (hsound : Sound s) (hcollides : ¬ Collides s p) {wd : Int}
    {s₁ : State} (hadd : s.inotifyAddWatch (s.heap p).path (s.heap p).mask = (.ok wd, s₁)) :
    s.watches[wd]? = none := by
  obtain ⟨hfd, hok, -⟩ := inotifyAddWatch_ok hsound hadd
  cases hwatch : s.watches[wd]? with
  | none => rfl
  | some q =>
      rcases (Instance.addWatch_eq_ok hok).2 with hnext | ⟨m, hm, hresolve, rfl⟩
      · have := hsound.watches wd q hwatch
        omega
      · refine absurd ⟨hfd, m, hm, ?_, hresolve⟩ hcollides
        exact Std.ExtTreeMap.mem_iff_isSome_getElem?.mpr (by rw [hwatch]; rfl)

/-- `SetEnabled`, unless it would take the descriptor of another watch. -/
theorem effect_setEnabled (h : Agree s) (hsound : Sound s) {enabled : Bool}
    (hset : enabled ≠ (s.heap p).enabled → (s.heap p).owner ≠ .unset)
    (hcollides : enabled ≠ (s.heap p).enabled → enabled = true → (s.heap p).owner = .inotify →
      ¬ Collides s p) :
    ∃ r s', s.setEnabled p enabled = some (r, s') ∧ Effect s s' := by
  unfold State.setEnabled
  simp only
  split_ifs with hsame hon
  · exact ⟨_, _, rfl, effect_kernel (.refl _)⟩
  · cases howner : (s.heap p).owner with
    | unset => exact absurd howner (hset hsame)
    | null =>
        refine ⟨_, _, rfl, .touched p { s.heap p with enabled } rfl rfl Iff.rfl (fun hne => ?_) rfl
          rfl rfl (.refl _)⟩
        rw [howner] at hne
        cases hne
    | inotify =>
        subst hon
        have hoff : (s.heap p).wd = -1 := by
          by_contra hwd
          exact hsame ((h.enabled p howner).mpr hwd).symm
        cases hadd : s.inotifyAddWatch (s.heap p).path (s.heap p).mask with
        | mk r s₁ =>
            cases r with
            | error err =>
                obtain ⟨k, hk, hkeeps⟩ :=
                  keeps_inotifyAddWatch s (s.heap p).path (s.heap p).mask
                rw [hadd] at hk
                subst hk
                refine ⟨_, _, rfl, .none rfl rfl ?_ hkeeps⟩
                show Function.update s.heap p { s.heap p with wd := -1 } = s.heap
                rw [← hoff]
                exact Function.update_eq_self p s.heap
            | ok wd =>
                have hnew := not_mem_of_not_collides hsound (hcollides hsame rfl howner) hadd
                obtain ⟨-, -, k, rfl, hkeeps, hpos, hnext, hlive⟩ := inotifyAddWatch_ok hsound hadd
                exact ⟨_, _, rfl, .switchedOn p wd howner hoff hnew hpos hnext hlive rfl rfl rfl
                  hkeeps⟩
  · cases howner : (s.heap p).owner with
    | unset => exact absurd howner (hset hsame)
    | null =>
        refine ⟨_, _, rfl, .touched p { s.heap p with enabled } rfl rfl Iff.rfl (fun hne => ?_) rfl
          rfl rfl (.refl _)⟩
        rw [howner] at hne
        cases hne
    | inotify =>
        obtain rfl : enabled = false := by simpa using hon
        cases hrm : s.inotifyRmWatch (s.heap p).wd with
        | mk r s₁ =>
            obtain ⟨k, hk, hkeeps⟩ := keeps_inotifyRmWatch s (s.heap p).wd
            rw [hrm] at hk
            subst hk
            cases r with
            | error err => exact ⟨_, _, rfl, effect_kernel hkeeps⟩
            | ok _ => exact ⟨_, _, rfl, .switchedOff p howner rfl rfl rfl hkeeps⟩

/-! ## All watches at once -/

theorem agree_of_no_owner (hpaths : s.paths = ∅) (hwatches : s.watches = ∅)
    (howner : ∀ p, (s.heap p).owner ≠ .inotify) (hwd : ∀ p, (s.heap p).wd = -1) : Agree s := by
  refine ⟨fun path p hp => ?_, fun p hp => absurd hp (howner p), fun wd p hp => ?_,
    fun p hp => absurd (hwd p) hp, fun p hp => absurd hp (howner p)⟩
  · simp [hpaths] at hp
  · simp [hwatches] at hp

/-- What `RemoveAll` leaves of a watch. -/
def Watch.released (w : Watch) : Watch := { w with wd := -1, owner := .null }

theorem release_eq (s : State) (p : Ptr) :
    ∃ k, s.release p = { s with
        heap := Function.update s.heap p (s.heap p).released
        kernel := k } ∧ s.kernel.Keeps k := by
  unfold State.release
  split_ifs with hwd
  · obtain ⟨k, hk, hkeeps⟩ := keeps_inotifyRmWatch s (s.heap p).wd
    rw [hk]
    exact ⟨k, rfl, hkeeps⟩
  · refine ⟨s.kernel, ?_, .refl _⟩
    simp only [State.modify, Watch.released]
    rw [← not_not.mp hwd]

theorem foldl_release (ps : List Ptr) (s : State) :
    ∃ k, ps.foldl State.release s = { s with
        heap := fun q => if q ∈ ps then (s.heap q).released else s.heap q
        kernel := k } ∧ s.kernel.Keeps k := by
  induction ps generalizing s with
  | nil => exact ⟨s.kernel, by simp, .refl _⟩
  | cons p ps ih =>
      obtain ⟨k₁, hs₁, hkeeps₁⟩ := release_eq s p
      obtain ⟨k₂, hs₂, hkeeps₂⟩ := ih (s.release p)
      rw [hs₁] at hs₂ hkeeps₂
      refine ⟨k₂, ?_, hkeeps₁.trans hkeeps₂⟩
      rw [List.foldl_cons, hs₁, hs₂]
      congr 1
      funext q
      by_cases hq : q = p
      · subst hq
        by_cases hmem : q ∈ ps <;> simp [hmem, Watch.released]
      · simp [hq]

theorem removeAll_eq (s : State) :
    ∃ k, s.removeAll = { s with
        watches := ∅
        paths := ∅
        heap := fun q => if q ∈ s.paths.toList.map Prod.snd then (s.heap q).released else s.heap q
        kernel := k } ∧ s.kernel.Keeps k := by
  obtain ⟨k, hk, hkeeps⟩ := foldl_release (s.paths.toList.map Prod.snd) s
  refine ⟨k, ?_, hkeeps⟩
  rw [State.removeAll, hk]

theorem Agree.removeAll (h : Agree s) : Agree s.removeAll := by
  obtain ⟨k, hs', -⟩ := removeAll_eq s
  rw [hs']
  have hmem : ∀ p, (s.heap p).owner = .inotify → p ∈ s.paths.toList.map Prod.snd := fun p hp =>
    List.mem_map_of_mem (Std.ExtTreeMap.mem_toList_iff_getElem?_eq_some.mpr (h.owned p hp))
  refine agree_of_no_owner rfl rfl (fun p => ?_) (fun p => ?_)
  · simp only
    split_ifs with hp
    · simp [Watch.released]
    · exact fun howner => hp (hmem p howner)
  · simp only
    split_ifs with hp
    · rfl
    · exact h.wd_of_not_owned fun howner => hp (hmem p howner)

theorem Sound.removeAll (h : Sound s) : Sound s.removeAll := by
  obtain ⟨k, hs', hkeeps⟩ := removeAll_eq s
  rw [hs']
  exact ⟨hkeeps.sound h.kernel, fun wd p hp => by simp at hp⟩

theorem removeAll_watches (s : State) : s.removeAll.watches = ∅ := rfl

theorem Agree.close (h : Agree s) : Agree s.close := by
  unfold State.close
  split_ifs
  · exact h
  · exact h.removeAll.congr rfl rfl rfl

theorem Sound.close (h : Sound s) : Sound s.close := by
  unfold State.close
  split_ifs
  · exact h
  · refine ⟨⟨h.removeAll.kernel.next, fun m hm => ?_, List.nodup_nil⟩, h.removeAll.watches⟩
    cases hm

theorem Backed.close (h : Backed s) : Backed s.close := by
  unfold State.close
  split_ifs
  · exact h
  · intro wd p hp
    simp [removeAll_watches] at hp

/-! ## Reading -/

/-- An event of a watch the wrapper knows is queued, with the watch switched off if it is gone. -/
theorem receive_spec (h : Agree s) (evt : RawEvent) :
    ∃ s', s.receive evt = some (.ok (), s') ∧ Agree s' ∧ s'.kernel = s.kernel ∧ s'.fd = s.fd ∧
      ∀ (wd : Int) p, s'.watches[wd]? = some p →
        s.watches[wd]? = some p ∧ (evt.wd = wd → isType evt.mask inIgnored = false) := by
  unfold State.receive
  cases hwatch : s.watches[evt.wd]? with
  | none =>
      refine ⟨s, rfl, h, rfl, rfl, fun wd p hp => ⟨hp, ?_⟩⟩
      rintro rfl
      rw [hwatch] at hp
      cases hp
  | some p =>
      obtain ⟨howner, hwd, hne⟩ := h.watches evt.wd p hwatch
      have henabled := (h.enabled p howner).mpr (hwd ▸ hne)
      simp only
      split_ifs with hoff
      · simp only [State.disable, henabled, howner, if_true, Option.map_some]
        refine ⟨_, rfl, ?_, rfl, rfl, fun wd q hq => ?_⟩
        · exact h.switchOff howner rfl rfl rfl
        · change (s.watches.erase (s.heap p).wd)[wd]? = some q at hq
          rw [getElem?_erase_eq] at hq
          split_ifs at hq with heq
          exact ⟨hq, fun hevt => absurd (hwd.trans hevt) heq⟩
      · refine ⟨_, rfl, h.congr rfl rfl rfl, rfl, rfl, fun wd q hq => ⟨hq, fun _ => ?_⟩⟩
        simp only [Bool.or_eq_true, not_or, Bool.not_eq_true] at hoff
        exact hoff.2

theorem receiveAll_spec (h : Agree s) (buf : List RawEvent) :
    ∃ s', s.receiveAll buf = some (.ok (), s') ∧ Agree s' ∧ s'.kernel = s.kernel ∧ s'.fd = s.fd ∧
      ∀ (wd : Int) p, s'.watches[wd]? = some p →
        s.watches[wd]? = some p ∧ ∀ evt ∈ buf, evt.wd = wd → isType evt.mask inIgnored = false := by
  induction buf generalizing s with
  | nil => exact ⟨s, rfl, h, rfl, rfl, fun wd p hp => ⟨hp, by simp⟩⟩
  | cons evt buf ih =>
      obtain ⟨s₁, hs₁, hagree₁, hkernel₁, hfd₁, hwatches₁⟩ := receive_spec h evt
      obtain ⟨s₂, hs₂, hagree₂, hkernel₂, hfd₂, hwatches₂⟩ := ih hagree₁
      refine ⟨s₂, ?_, hagree₂, hkernel₂.trans hkernel₁, hfd₂.trans hfd₁, fun wd p hp => ?_⟩
      · rw [State.receiveAll, hs₁]
        exact hs₂
      · obtain ⟨hp₁, hbuf⟩ := hwatches₂ wd p hp
        obtain ⟨hp, hevt⟩ := hwatches₁ wd p hp₁
        exact ⟨hp, List.forall_mem_cons.mpr ⟨hevt, hbuf⟩⟩

/-- `WaitForEvents` never throws out of its loop. What has a descriptor afterwards had it before,
and the events read do not say that it is gone. -/
theorem waitForEvents_spec (h : Agree s) (hfd : s.fd ≠ -1) (count : Nat) :
    ∃ s', s.waitForEvents count = some (.ok (), s') ∧ Agree s' ∧ s'.fd = s.fd ∧
      s'.kernel = { s.kernel with queue := s.kernel.queue.drop count } ∧
      ∀ (wd : Int) p, s'.watches[wd]? = some p → s.watches[wd]? = some p ∧
        ∀ evt ∈ s.kernel.queue.take count, evt.wd = wd → isType evt.mask inIgnored = false := by
  let s₀ : State := { s with kernel := { s.kernel with queue := s.kernel.queue.drop count } }
  have h₀ : Agree s₀ := h.congr rfl rfl rfl
  obtain ⟨s', hs', hagree, hkernel, hfd', hwatches⟩ :=
    receiveAll_spec h₀ (s.kernel.queue.take count)
  refine ⟨s', ?_, hagree, hfd', hkernel, hwatches⟩
  rw [State.waitForEvents, if_neg hfd]
  exact hs'

theorem backed_of_read (h : Backed s) {count : Nat}
    (hkernel : s'.kernel = { s.kernel with queue := s.kernel.queue.drop count })
    (hwatches : ∀ (wd : Int) p, s'.watches[wd]? = some p → s.watches[wd]? = some p ∧
      ∀ evt ∈ s.kernel.queue.take count, evt.wd = wd → isType evt.mask inIgnored = false) :
    Backed s' := by
  intro wd p hp
  obtain ⟨hp, htake⟩ := hwatches wd p hp
  rw [hkernel]
  rcases h wd p hp with hlive | ⟨evt, hevt, hwd, hignored⟩
  · exact .inl hlive
  · -- the news is not among the events read, so it is still queued
    right
    rw [← List.take_append_drop count s.kernel.queue] at hevt
    rcases List.mem_append.mp hevt with hevt | hevt
    · rw [htake evt hevt hwd] at hignored
      cases hignored
    · exact ⟨evt, hevt, hwd, hignored⟩

/-! ## Steps and runs -/

/-- The calls after which the maps and the objects still agree, and what can happen in the kernel. -/
def Proper (s : State) : Call → Prop
  | .remove p => s.fd = -1 ∨ (s.heap p).owner = .inotify ∨ (s.heap p).path ∉ s.paths
  | .setEnabled p enabled => enabled ≠ (s.heap p).enabled →
      (s.heap p).owner ≠ .unset ∧
        (enabled = true → (s.heap p).owner = .inotify → ¬ Collides s p)
  | .fire m evt => m ∈ s.kernel.marks ∧ evt.wd = m.wd ∧ isType evt.mask inIgnored = false
  | .vanish wd => s.kernel.Live wd
  | .overflow => s.fd ≠ -1
  | _ => True

theorem step_of_perform {call : Call} {r : Except InotifyException Unit}
    (h : s.perform call = some (r, s')) : s.step call = some s' := by
  rw [State.step, h]
  rfl

theorem Effect.step {call : Call} {r : Except InotifyException Unit}
    (hperform : s.perform call = some (r, s')) (h : Agree s) (hsound : Sound s)
    (he : Effect s s') :
    ∃ s', s.step call = some s' ∧ Agree s' ∧ Sound s' ∧ (Backed s → Backed s') :=
  ⟨s', step_of_perform hperform, he.agree h, he.sound hsound, fun hbacked => he.backed hbacked⟩

/-- A proper call is defined, and everything still agrees after it. -/
theorem step_proper (h : Agree s) (hsound : Sound s) {call : Call} (hproper : Proper s call) :
    ∃ s', s.step call = some s' ∧ Agree s' ∧ Sound s' ∧ (Backed s → Backed s') := by
  cases call with
  | add p => exact (effect_add h hsound p).step rfl h hsound
  | remove p =>
      apply Effect.step rfl h hsound
      exact effect_remove h (hproper.imp_right (Or.imp_right Std.ExtTreeMap.getElem?_eq_none))
  | removeAll =>
      refine ⟨_, rfl, h.removeAll, hsound.removeAll, fun _ wd p hp => ?_⟩
      simp [removeAll_watches] at hp
  | close => exact ⟨_, rfl, h.close, hsound.close, Backed.close⟩
  | setEnabled p enabled =>
      obtain ⟨r, s', hset, he⟩ := effect_setEnabled (p := p) h hsound
        (fun hne => (hproper hne).1) (fun hne => (hproper hne).2)
      exact he.step hset h hsound
  | setMask p mask =>
      obtain ⟨r, s', hset, he⟩ := effect_setMask h p mask
      exact he.step hset h hsound
  | waitForEvents count =>
      by_cases hfd : s.fd = -1
      · have hperform : s.waitForEvents count = some (s.throwing "reading events failed" ebadf) :=
          if_pos hfd
        exact (effect_kernel (.refl _)).step hperform h hsound
      · obtain ⟨s', hs', hagree, -, hkernel, hwatches⟩ := waitForEvents_spec h hfd count
        refine ⟨s', step_of_perform hs', hagree, ⟨?_, fun wd p hp => ?_⟩, fun hbacked =>
          backed_of_read hbacked hkernel hwatches⟩
        · rw [hkernel]
          exact ⟨hsound.kernel.next, hsound.kernel.marks, hsound.kernel.inodes⟩
        · rw [hkernel]
          exact hsound.watches wd p (hwatches wd p hp).1
  | getEvent =>
      apply Effect.step rfl h hsound
      unfold State.getEvent
      cases s.events <;> exact .none rfl rfl rfl (.refl _)
  | fire m evt =>
      exact (effect_kernel (s.kernel.keeps_fire m evt)).step (if_pos hproper) h hsound
  | vanish wd => exact (effect_kernel (s.kernel.keeps_unmark wd)).step (if_pos hproper) h hsound
  | overflow => exact (effect_kernel (s.kernel.keeps_queue _)).step (if_neg hproper) h hsound
  | relink resolve => exact (effect_kernel (s.kernel.keeps_relink resolve)).step rfl h hsound

/-- `Remove` of a watch that is not the wrapper's, and whose path is one of its watches'. -/
theorem not_agree_remove (h : Agree s) (hfd : s.fd ≠ -1) (howner : (s.heap p).owner ≠ .inotify)
    (hpath : (s.heap p).path ∈ s.paths) : ¬ Agree (s.remove p).2 := by
  intro hagree
  obtain ⟨q, hq⟩ := Option.isSome_iff_exists.mp (Std.ExtTreeMap.mem_iff_isSome_getElem?.mp hpath)
  obtain ⟨hqpath, hqowner⟩ := h.paths _ q hq
  have hne : q ≠ p := by
    rintro rfl
    exact howner hqowner
  have hremove : (s.remove p).2 = s.detach p := by
    rw [State.remove, if_neg hfd, if_neg (not_not.mpr (h.wd_of_not_owned howner))]
  -- the watch of the wrapper is left without its path
  have hkept : (s.detach p).heap q = s.heap q := Function.update_of_ne hne _ _
  rw [hremove] at hagree
  have hlost := hagree.owned q (by rw [hkept]; exact hqowner)
  rw [hkept, hqpath] at hlost
  change (s.paths.erase (s.heap p).path)[(s.heap p).path]? = some q at hlost
  rw [getElem?_erase_eq, if_pos rfl] at hlost
  cases hlost

/-- `SetEnabled` that takes the descriptor of another watch. -/
theorem not_agree_setEnabled (h : Agree s) (hsound : Sound s) (hoff : (s.heap p).enabled = false)
    (howner : (s.heap p).owner = .inotify) (hcollides : Collides s p) {r : Except InotifyException Unit}
    (hset : s.setEnabled p true = some (r, s')) : ¬ Agree s' := by
  intro hagree
  obtain ⟨hfd, m, hm, hmem, hresolve⟩ := hcollides
  obtain ⟨q, hq⟩ := Option.isSome_iff_exists.mp (Std.ExtTreeMap.mem_iff_isSome_getElem?.mp hmem)
  have hpwd : (s.heap p).wd = -1 := by
    by_contra hwd
    rw [(h.enabled p howner).mpr hwd] at hoff
    cases hoff
  obtain ⟨-, hqwd, hne⟩ := h.watches m.wd q hq
  have hpq : p ≠ q := by
    rintro rfl
    exact hne (hqwd.symm.trans hpwd)
  have hadd : (s.inotifyAddWatch (s.heap p).path (s.heap p).mask).1 = .ok m.wd := by
    rw [State.inotifyAddWatch, if_neg hfd]
    exact Instance.addWatch_of_mark hsound.kernel hm hresolve
  obtain ⟨k, hk, -⟩ := keeps_inotifyAddWatch s (s.heap p).path (s.heap p).mask
  rw [State.setEnabled] at hset
  cases hcall : s.inotifyAddWatch (s.heap p).path (s.heap p).mask with
  | mk r' s₁ =>
      rw [hcall] at hadd hk
      subst hadd hk
      simp only [hoff, howner, hcall, Bool.true_eq_false, if_false, if_true, Option.some.injEq,
        Prod.mk.injEq] at hset
      obtain ⟨-, rfl⟩ := hset
      -- the descriptor still leads to the other watch
      have hfound := hagree.described p (by simpa [State.modify] using hne)
      simp only [State.modify, Function.update_self] at hfound
      rw [Std.ExtTreeMap.getElem?_insertIfNew, if_neg fun hnew => hnew.2 hmem, hq] at hfound
      exact hpq (Option.some.inj hfound).symm

/-- A call leaves the maps and the objects in agreement exactly when it is a proper one. -/
theorem step_agree_iff (h : Agree s) (hsound : Sound s) (call : Call) :
    (∃ s', s.step call = some s' ∧ Agree s') ↔ Proper s call := by
  constructor
  · rintro ⟨s', hstep, hagree⟩
    obtain ⟨⟨r, s''⟩, hperform, rfl⟩ := Option.map_eq_some_iff.mp hstep
    cases call with
    | remove p =>
        by_contra hproper
        simp only [Proper, not_or, not_not] at hproper
        obtain ⟨hfd, howner, hpath⟩ := hproper
        obtain rfl : (s.remove p).2 = s'' := congrArg Prod.snd (Option.some.inj hperform)
        exact not_agree_remove h hfd howner hpath hagree
    | setEnabled p enabled =>
        intro hne
        constructor
        · intro hunset
          change s.setEnabled p enabled = _ at hperform
          rw [State.setEnabled, if_neg hne, hunset] at hperform
          cases hperform
        · rintro rfl howner hcollides
          exact not_agree_setEnabled h hsound (by simpa using Ne.symm hne) howner hcollides
            hperform hagree
    | fire m evt =>
        change (if _ then _ else _) = _ at hperform
        split_ifs at hperform with hfires
        exact hfires
    | vanish wd =>
        change (if _ then _ else _) = _ at hperform
        split_ifs at hperform with hlive
        exact hlive
    | overflow =>
        intro hfd
        change (if _ then _ else _) = _ at hperform
        rw [if_pos hfd] at hperform
        cases hperform
    | _ => trivial
  · intro hproper
    obtain ⟨s', hstep, hagree, -⟩ := step_proper h hsound hproper
    exact ⟨s', hstep, hagree⟩

section Runs

variable (fd : Nat) (resolve : Bytes → UInt32 → Except Int Inode) (objects : Ptr → Bytes × UInt32 × Bool)

theorem agree_init : Agree (State.init fd resolve objects) := by
  apply agree_of_no_owner rfl rfl
  · intro p howner
    cases howner
  · exact fun _ => rfl

theorem sound_init : Sound (State.init fd resolve objects) := by
  refine ⟨⟨Int.one_pos, fun m hm => ?_, List.nodup_nil⟩, fun wd p hp => ?_⟩
  · cases hm
  · simp [State.init] at hp

theorem backed_init : Backed (State.init fd resolve objects) := by
  intro wd p hp
  simp [State.init] at hp

/-- Through a whole run the maps and the watch objects agree exactly when no call switches on a
watch whose file another watch has, switches a watch that was never added, or removes a watch that
is not the wrapper's by the path of one that is. -/
theorem agree_iff (calls : List Call) :
    Throughout State.step Agree (State.init fd resolve objects) calls ↔
      EachStep State.step Proper (State.init fd resolve objects) calls := by
  apply throughout_iff_eachStep_of_invariant
    (fun s call h (hsound : Sound s) => step_agree_iff h hsound call)
  · intro s call s' h hsound hproper hstep
    obtain ⟨s'', hstep', -, hsound', -⟩ := step_proper h hsound hproper
    obtain rfl : s'' = s' := Option.some.inj (hstep'.symm.trans hstep)
    exact hsound'
  · exact agree_init fd resolve objects
  · exact sound_init fd resolve objects

/-- What every run of proper calls keeps. -/
theorem kept_of_proper {calls : List Call}
    (hproper : EachStep State.step Proper (State.init fd resolve objects) calls)
    (hs : run State.step (State.init fd resolve objects) calls = some s) :
    Agree s ∧ Sound s ∧ Backed s := by
  have hkeep : ∀ s call s', Proper s call → Agree s ∧ Sound s ∧ Backed s → s.step call = some s' →
      Agree s' ∧ Sound s' ∧ Backed s' := by
    rintro s call s' hproper ⟨hagree, hsound, hbacked⟩ hstep
    obtain ⟨s'', hstep', hagree', hsound', hbacked'⟩ := step_proper hagree hsound hproper
    obtain rfl : s'' = s' := Option.some.inj (hstep'.symm.trans hstep)
    exact ⟨hagree', hsound', hbacked' hbacked⟩
  exact hproper.invariant hkeep ⟨agree_init fd resolve objects, sound_init fd resolve objects,
    backed_init fd resolve objects⟩ hs

end Runs

end TudorDo.Objects
