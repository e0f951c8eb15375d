import Mathlib.Data.List.Nodup
import TudorDo.Inotify.Objects

/-!
# The two maps and the watch objects

`Agree` says what a client may rely on between calls: a watch is found by its path exactly while it
belongs to the wrapper, by its descriptor exactly while it has one, and has one exactly while it is
enabled. `Effect` lists what a call can do to the maps, the objects and the kernel while they agree;
each of its cases keeps what is said here.
-/

namespace TudorDo.Objects

open Lib

section Maps

variable {κ β : Type} [Ord κ] [Std.TransOrd κ] [Std.LawfulEqOrd κ] [DecidableEq κ]

theorem getElem?_insertIfNew_of_none {m : Std.ExtTreeMap κ β} {k : κ} (h : m[k]? = none) (v : β)
    (a : κ) : (m.insertIfNew k v)[a]? = if k = a then some v else m[a]? := by
  have hmem : k ∉ m := fun hk => by
    rw [Std.ExtTreeMap.getElem?_eq_some_getElem hk] at h
    cases h
  simp only [Std.ExtTreeMap.getElem?_insertIfNew, hmem, not_false_eq_true, and_true,
    Std.LawfulEqCmp.compare_eq_iff_eq]

theorem getElem?_erase_eq (m : Std.ExtTreeMap κ β) (k a : κ) :
    (m.erase k)[a]? = if k = a then none else m[a]? := by
  simp only [Std.ExtTreeMap.getElem?_erase, Std.LawfulEqCmp.compare_eq_iff_eq]

end Maps

/-! ## What a client may rely on -/

structure Agree (s : State) : Prop where
  paths : ∀ (path : Bytes) p, s.paths[path]? = some p →
    (s.heap p).path = path ∧ (s.heap p).owner = .inotify
  owned : ∀ p, (s.heap p).owner = .inotify → s.paths[(s.heap p).path]? = some p
  watches : ∀ (wd : Int) p, s.watches[wd]? = some p →
    (s.heap p).owner = .inotify ∧ (s.heap p).wd = wd ∧ wd ≠ -1
  described : ∀ p, (s.heap p).wd ≠ -1 → s.watches[(s.heap p).wd]? = some p
  enabled : ∀ p, (s.heap p).owner = .inotify → ((s.heap p).enabled = true ↔ (s.heap p).wd ≠ -1)

namespace Instance

/-- Descriptors are given out once, and a file has one mark. -/
structure Sound (k : Instance) : Prop where
  next : 0 < k.next
  marks : ∀ m ∈ k.marks, 0 < m.wd ∧ m.wd < k.next
  inodes : (k.marks.map Mark.ino).Nodup

/-- There is a mark with the descriptor, or the news that it is gone is on its way. -/
def Backs (k : Instance) (wd : Int) : Prop :=
  k.Live wd ∨ ∃ evt ∈ k.queue, evt.wd = wd ∧ isType evt.mask inIgnored = true

/-- What the kernel does by itself or is asked to do between two reads. -/
structure Keeps (k k' : Instance) : Prop where
  sound : k.Sound → k'.Sound
  next : k.next ≤ k'.next
  backs : ∀ wd, k.Backs wd → k'.Backs wd

end Instance

structure Sound (s : State) : Prop where
  kernel : s.kernel.Sound
  watches : ∀ (wd : Int) p, s.watches[wd]? = some p → 0 < wd ∧ wd < s.kernel.next

/-- The kernel has the watches the wrapper counts as enabled, or has queued that they are gone. -/
def Backed (s : State) : Prop :=
  ∀ (wd : Int) p, s.watches[wd]? = some p → s.kernel.Backs wd

variable {s s' : State} {p q : Ptr}

namespace Agree

/-- The maps and the objects are all that matters. -/
theorem congr (h : Agree s) (hpaths : s'.paths = s.paths) (hwatches : s'.watches = s.watches)
    (hheap : s'.heap = s.heap) : Agree s' := by
  refine ⟨?_, ?_, ?_, ?_, ?_⟩ <;> simp only [hpaths, hwatches, hheap]
  · exact h.paths
  · exact h.owned
  · exact h.watches
  · exact h.described
  · exact h.enabled

theorem wd_of_not_owned (h : Agree s) (hp : (s.heap p).owner ≠ .inotify) : (s.heap p).wd = -1 := by
  by_contra hwd
  exact hp (h.watches _ p (h.described p hwd)).1

theorem not_owned (h : Agree s) (hp : s.paths[(s.heap p).path]? = none) :
    (s.heap p).owner ≠ .inotify := by
  intro howner
  rw [h.owned p howner] at hp
  cases hp

/-- A watch with its descriptor is the only one with it. -/
theorem wd_injective (h : Agree s) (hp : (s.heap p).wd ≠ -1) (heq : (s.heap p).wd = (s.heap q).wd) :
    p = q := by
  have hq := h.described q (heq ▸ hp)
  rw [← heq, h.described p hp] at hq
  exact Option.some.inj hq

theorem no_watch_without_wd (h : Agree s) : s.watches[(-1 : Int)]? = none := by
  cases hp : s.watches[(-1 : Int)]? with
  | none => rfl
  | some p => exact absurd rfl (h.watches _ p hp).2.2

/-- One object changes, and the maps follow it. -/
theorem change (h : Agree s) {w : Watch} (hpath : w.path = (s.heap p).path)
    (hheap : s'.heap = Function.update s.heap p w)
    (hpaths : ∀ path : Bytes, s'.paths[path]? =
      if path = w.path then (if w.owner = .inotify then some p else none) else s.paths[path]?)
    (hwatches : ∀ wd : Int, s'.watches[wd]? =
      if wd = w.wd ∧ wd ≠ -1 then some p else if wd = (s.heap p).wd then none else s.watches[wd]?)
    (hown : ∀ q, s.paths[w.path]? = some q → q = p)
    (hfree : w.wd ≠ -1 → ∀ q, s.watches[w.wd]? = some q → q = p)
    (henabled : w.owner = .inotify → (w.enabled = true ↔ w.wd ≠ -1))
    (hlost : w.owner ≠ .inotify → w.wd = -1) : Agree s' := by
  have hself : s'.heap p = w := by rw [hheap, Function.update_self]
  have hother : ∀ q, q ≠ p → s'.heap q = s.heap q := fun q hq => by
    rw [hheap, Function.update_of_ne hq]
  have hpath_ne : ∀ q, q ≠ p → (s.heap q).owner = .inotify → (s.heap q).path ≠ w.path := by
    intro q hq howner heq
    apply hq
    apply hown q
    rw [← heq]
    exact h.owned q howner
  refine ⟨fun path q hq => ?_, fun q hq => ?_, fun wd q hq => ?_, fun q hq => ?_, fun q hq => ?_⟩
  · rw [hpaths] at hq
    split_ifs at hq with h₁ h₂
    · cases hq
      rw [hself]
      exact ⟨h₁.symm, h₂⟩
    · -- another path still leads to another object
      obtain ⟨hq₁, hq₂⟩ := h.paths path q hq
      have hne : q ≠ p := by
        rintro rfl
        exact h₁ (hq₁.symm.trans hpath.symm)
      rw [hother q hne]
      exact ⟨hq₁, hq₂⟩
  · by_cases hqp : q = p
    · subst hqp
      rw [hself] at hq ⊢
      rw [hpaths, if_pos rfl, if_pos hq]
    · rw [hother q hqp] at hq ⊢
      rw [hpaths, if_neg (hpath_ne q hqp hq)]
      exact h.owned q hq
  · rw [hwatches] at hq
    split_ifs at hq with h₁ h₂
    · cases hq
      rw [hself]
      refine ⟨?_, h₁.1.symm, h₁.2⟩
      by_contra howner
      exact h₁.2 (h₁.1.trans (hlost howner))
    · obtain ⟨hq₁, hq₂, hq₃⟩ := h.watches wd q hq
      have hne : q ≠ p := by
        rintro rfl
        exact h₂ hq₂.symm
      rw [hother q hne]
      exact ⟨hq₁, hq₂, hq₃⟩
  · by_cases hqp : q = p
    · subst hqp
      rw [hself] at hq ⊢
      rw [hwatches, if_pos ⟨rfl, hq⟩]
    · rw [hother q hqp] at hq ⊢
      have hdescribed := h.described q hq
      have h₁ : (s.heap q).wd ≠ w.wd := by
        intro heq
        exact hqp (hfree (heq ▸ hq) q (heq ▸ hdescribed))
      have h₂ : (s.heap q).wd ≠ (s.heap p).wd := fun heq => hqp (h.wd_injective hq heq)
      rw [hwatches, if_neg fun heq => h₁ heq.1, if_neg h₂]
      exact hdescribed
  · by_cases hqp : q = p
    · subst hqp
      rw [hself] at hq ⊢
      exact henabled hq
    · rw [hother q hqp] at hq ⊢
      exact h.enabled q hq

/-- One object changes in what the maps do not depend on. -/
theorem touch (h : Agree s) {w : Watch} (hpath : w.path = (s.heap p).path)
    (hwd : w.wd = (s.heap p).wd) (howner : w.owner = .inotify ↔ (s.heap p).owner = .inotify)
    (henabled : w.owner = .inotify → w.enabled = (s.heap p).enabled)
    (hheap : s'.heap = Function.update s.heap p w) (hpaths : s'.paths = s.paths)
    (hwatches : s'.watches = s.watches) : Agree s' := by
  have hsame : ∀ q, (s'.heap q).path = (s.heap q).path ∧ (s'.heap q).wd = (s.heap q).wd ∧
      ((s'.heap q).owner = .inotify ↔ (s.heap q).owner = .inotify) ∧
      ((s.heap q).owner = .inotify → (s'.heap q).enabled = (s.heap q).enabled) := by
    intro q
    rw [hheap]
    by_cases hq : q = p
    · subst hq
      rw [Function.update_self]
      exact ⟨hpath, hwd, howner, fun hq => henabled (howner.mpr hq)⟩
    · rw [Function.update_of_ne hq]
      exact ⟨rfl, rfl, Iff.rfl, fun _ => rfl⟩
  refine ⟨fun path q hq => ?_, fun q hq => ?_, fun wd q hq => ?_, fun q hq => ?_, fun q hq => ?_⟩
  · rw [(hsame q).1, (hsame q).2.2.1]
    exact h.paths path q (hpaths ▸ hq)
  · rw [(hsame q).1, hpaths]
    exact h.owned q ((hsame q).2.2.1.mp hq)
  · rw [(hsame q).2.1, (hsame q).2.2.1]
    exact h.watches wd q (hwatches ▸ hq)
  · rw [(hsame q).2.1] at hq ⊢
    rw [hwatches]
    exact h.described q hq
  · have hq := (hsame q).2.2.1.mp hq
    rw [(hsame q).2.1, (hsame q).2.2.2 hq]
    exact h.enabled q hq

/-- Nothing changes in the map of paths while its objects keep them. -/
theorem paths_self (h : Agree s) (hp : (s.heap p).owner = .inotify) (path : Bytes) :
    s.paths[path]? = if path = (s.heap p).path then some p else s.paths[path]? := by
  split_ifs with heq
  · rw [heq]
    exact h.owned p hp
  · rfl

theorem only_owner (h : Agree s) (hp : (s.heap p).owner = .inotify) (q : Ptr)
    (hq : s.paths[(s.heap p).path]? = some q) : q = p := by
  rw [h.owned p hp] at hq
  exact (Option.some.inj hq).symm

/-- A watch that is switched on gets a descriptor that no other watch has. -/
theorem switchOn (h : Agree s) {wd : Int} (hp : (s.heap p).owner = .inotify)
    (hoff : (s.heap p).wd = -1) (hwd : wd ≠ -1) (hnew : s.watches[wd]? = none)
    (hheap : s'.heap = Function.update s.heap p { s.heap p with wd, enabled := true })
    (hpaths : s'.paths = s.paths) (hwatches : s'.watches = s.watches.insertIfNew wd p) :
    Agree s' := by
  apply h.change (w := { s.heap p with wd, enabled := true }) rfl hheap
  · intro path
    rw [hpaths]
    show _ = if path = (s.heap p).path then (if (s.heap p).owner = .inotify then some p else none)
      else _
    rw [if_pos hp]
    exact h.paths_self hp path
  · intro wd'
    rw [hwatches, getElem?_insertIfNew_of_none hnew]
    show _ = if wd' = wd ∧ wd' ≠ -1 then some p else if wd' = (s.heap p).wd then none else _
    by_cases h₁ : wd = wd'
    · subst h₁
      rw [if_pos rfl, if_pos ⟨rfl, hwd⟩]
    · rw [if_neg h₁, if_neg fun heq => h₁ heq.1.symm, hoff]
      split_ifs with h₂
      · rw [h₂]
        exact h.no_watch_without_wd
      · rfl
  · exact h.only_owner hp
  · intro _ q hq
    change s.watches[wd]? = some q at hq
    rw [hnew] at hq
    cases hq
  · exact fun _ => iff_of_true rfl hwd
  · exact fun howner => absurd hp howner

/-- A watch that is switched off gives its descriptor up. -/
theorem switchOff (h : Agree s) (hp : (s.heap p).owner = .inotify)
    (hheap : s'.heap = Function.update s.heap p { s.heap p with wd := -1, enabled := false })
    (hpaths : s'.paths = s.paths) (hwatches : s'.watches = s.watches.erase (s.heap p).wd) :
    Agree s' := by
  apply h.change (w := { s.heap p with wd := -1, enabled := false }) rfl hheap
  · intro path
    rw [hpaths]
    show _ = if path = (s.heap p).path then (if (s.heap p).owner = .inotify then some p else none)
      else _
    rw [if_pos hp]
    exact h.paths_self hp path
  · intro wd
    rw [hwatches, getElem?_erase_eq]
    have hnone : ¬ (wd = -1 ∧ wd ≠ -1) := fun heq => heq.2 heq.1
    show _ = if wd = -1 ∧ wd ≠ -1 then some p else if wd = (s.heap p).wd then none else _
    rw [if_neg hnone]
    simp only [eq_comm]
  · exact h.only_owner hp
  · exact fun hne => absurd rfl hne
  · exact fun _ => iff_of_false (by simp) fun hne => hne rfl
  · exact fun _ => rfl

/-- A watch that joins the wrapper, with a descriptor if it is enabled. -/
theorem join (h : Agree s) {w : Watch} (hw : w.path = (s.heap p).path) (howner : w.owner = .inotify)
    (hfree : s.paths[(s.heap p).path]? = none) (hnew : w.wd ≠ -1 → s.watches[w.wd]? = none)
    (henabled : w.enabled = true ↔ w.wd ≠ -1)
    (hheap : s'.heap = Function.update s.heap p w)
    (hpaths : s'.paths = s.paths.insertIfNew (s.heap p).path p)
    (hwatches : ∀ wd : Int, s'.watches[wd]? =
      if wd = w.wd ∧ wd ≠ -1 then some p else s.watches[wd]?) : Agree s' := by
  have hoff := h.wd_of_not_owned (h.not_owned hfree)
  apply h.change hw hheap
  · intro path
    rw [hpaths, getElem?_insertIfNew_of_none hfree, hw, howner, if_pos rfl]
    simp only [eq_comm]
  · intro wd
    rw [hwatches, hoff]
    split_ifs with h₁ h₂
    · rfl
    · rw [h₂]
      exact h.no_watch_without_wd
    · rfl
  · intro q hq
    rw [hw, hfree] at hq
    cases hq
  · intro hwd q hq
    rw [hnew hwd] at hq
    cases hq
  · exact fun _ => henabled
  · exact fun hne => absurd howner hne

/-- A watch that leaves the wrapper. -/
theorem leave (h : Agree s) (hp : (s.heap p).owner = .inotify)
    (hheap : s'.heap = Function.update s.heap p { s.heap p with wd := -1, owner := .null })
    (hpaths : s'.paths = s.paths.erase (s.heap p).path)
    (hwatches : ∀ wd : Int, s'.watches[wd]? =
      if wd = (s.heap p).wd then none else s.watches[wd]?) : Agree s' := by
  apply h.change (w := { s.heap p with wd := -1, owner := .null }) rfl hheap
  · intro path
    rw [hpaths, getElem?_erase_eq]
    show _ = if path = (s.heap p).path then none else _
    simp only [eq_comm]
  · intro wd
    have hnone : ¬ (wd = -1 ∧ wd ≠ -1) := fun heq => heq.2 heq.1
    rw [hwatches]
    show _ = if wd = -1 ∧ wd ≠ -1 then some p else if wd = (s.heap p).wd then none else _
    rw [if_neg hnone]
  · exact h.only_owner hp
  · exact fun hne => absurd rfl hne
  · intro howner
    cases howner
  · exact fun _ => rfl

end Agree

/-! ## The kernel -/

namespace Instance

variable {k k' k'' : Instance} {wd : Int}

theorem Keeps.refl (k : Instance) : k.Keeps k := ⟨id, Int.le_refl _, fun _ => id⟩

theorem Keeps.trans (h : k.Keeps k') (h' : k'.Keeps k'') : k.Keeps k'' :=
  ⟨fun hk => h'.sound (h.sound hk), Int.le_trans h.next h'.next, fun wd hwd => h'.backs wd (h.backs wd hwd)⟩

theorem keeps_relink (k : Instance) (resolve : Bytes → UInt32 → Except Int Inode) :
    k.Keeps { k with resolve } :=
  ⟨fun h => ⟨h.next, h.marks, h.inodes⟩, Int.le_refl _, fun _ => id⟩

theorem keeps_queue (k : Instance) (evt : RawEvent) : k.Keeps { k with queue := k.queue ++ [evt] } := by
  refine ⟨fun h => ⟨h.next, h.marks, h.inodes⟩, Int.le_refl _, fun wd hwd => hwd.imp_right ?_⟩
  rintro ⟨evt', hevt, hwd⟩
  exact ⟨evt', List.mem_append_left _ hevt, hwd⟩

theorem keeps_unmark (k : Instance) (wd : Int) : k.Keeps (k.unmark wd) := by
  refine ⟨fun h => ⟨h.next, fun m hm => h.marks m (List.mem_filter.mp hm).1, ?_⟩, Int.le_refl _,
    fun wd' hwd => ?_⟩
  · exact h.inodes.sublist (List.filter_sublist.map _)
  · by_cases heq : wd' = wd
    · right
      refine ⟨ignored wd, List.mem_append_right _ (List.mem_singleton.mpr rfl), heq.symm, ?_⟩
      show isType inIgnored inIgnored = true
      decide
    · rcases hwd with ⟨m, hm, rfl⟩ | ⟨evt, hevt, hwd⟩
      · exact .inl ⟨m, List.mem_filter.mpr ⟨hm, by simpa using heq⟩, rfl⟩
      · exact .inr ⟨evt, List.mem_append_left _ hevt, hwd⟩

theorem keeps_fire (k : Instance) (m : Mark) (evt : RawEvent) : k.Keeps (k.fire m evt) := by
  unfold fire
  split_ifs
  · exact (k.keeps_queue evt).trans (keeps_unmark _ _)
  · exact k.keeps_queue evt

theorem keeps_rmWatch (k : Instance) (wd : Int) : k.Keeps (k.rmWatch wd).2 := by
  unfold rmWatch
  split_ifs
  · exact k.keeps_unmark wd
  · exact .refl k

theorem keeps_addWatch (k : Instance) (path : Bytes) (mask : UInt32) :
    k.Keeps (k.addWatch path mask).2 := by
  unfold addWatch
  cases k.resolve path mask with
  | error err => exact .refl k
  | ok ino =>
      cases hfind : k.marks.find? (·.ino = ino) with
      | some m =>
          simp only [hfind]
          generalize (if isType mask inMaskAdd then m.mask ||| mask else mask) = mask'
          refine ⟨fun h => ⟨h.next, fun m' hm' => ?_, ?_⟩, Int.le_refl _, fun wd hwd => hwd.imp_left ?_⟩
          · obtain ⟨m'', hm'', rfl⟩ := List.mem_map.mp hm'
            split_ifs <;> exact h.marks m'' hm''
          · rw [List.map_map]
            convert h.inodes using 2
            funext m'
            simp only [Function.comp]
            split_ifs <;> rfl
          · rintro ⟨m', hm', rfl⟩
            refine ⟨_, List.mem_map_of_mem hm', ?_⟩
            split_ifs <;> rfl
      | none =>
          simp only [hfind]
          refine ⟨fun h => ⟨?_, fun m hm => ?_, ?_⟩, ?_, fun wd hwd => hwd.imp_left ?_⟩
          · have := h.next
            show 0 < k.next + 1
            omega
          · show 0 < m.wd ∧ m.wd < k.next + 1
            rcases List.mem_append.mp hm with hm | hm
            · have := h.marks m hm
              omega
            · have := h.next
              rw [List.mem_singleton.mp hm]
              show 0 < k.next ∧ k.next < k.next + 1
              omega
          · rw [List.map_append, List.nodup_append]
            refine ⟨h.inodes, by simp, ?_⟩
            rintro a ha b hb rfl
            obtain ⟨m, hm, rfl⟩ := List.mem_map.mp ha
            have := List.find?_eq_none.mp hfind m hm
            simp only [List.map_cons, List.map_nil, List.mem_singleton] at hb
            simp [hb] at this
          · show k.next ≤ k.next + 1
            omega
          · rintro ⟨m, hm, hwd⟩
            exact ⟨m, List.mem_append_left _ hm, hwd⟩

/-- The descriptor `inotify_add_watch` returns: that of the mark on the file, or a new one. -/
theorem addWatch_eq_ok {path : Bytes} {mask : UInt32}
    (hadd : (k.addWatch path mask).1 = .ok wd) :
    (k.addWatch path mask).2.Live wd ∧
      (k.next = wd ∨ ∃ m ∈ k.marks, k.resolve path mask = .ok m.ino ∧ m.wd = wd) := by
  unfold addWatch at hadd ⊢
  cases hresolve : k.resolve path mask with
  | error err => simp [hresolve] at hadd
  | ok ino =>
      cases hfind : k.marks.find? (·.ino = ino) with
      | some m =>
          simp only [hresolve, hfind, Except.ok.injEq] at hadd ⊢
          have hm := List.mem_of_find?_eq_some hfind
          have hino : m.ino = ino := by simpa using List.find?_some hfind
          refine ⟨⟨_, List.mem_map_of_mem hm, ?_⟩, .inr ⟨m, hm, hino.symm, hadd⟩⟩
          rw [if_pos rfl]
          exact hadd
      | none =>
          simp only [hresolve, hfind, Except.ok.injEq] at hadd ⊢
          exact ⟨⟨_, List.mem_append_right _ (List.mem_singleton.mpr rfl), hadd⟩, .inl hadd⟩

/-- A file that has a mark keeps its descriptor. -/
theorem addWatch_of_mark (h : k.Sound) {path : Bytes} {mask : UInt32} {m : Mark} (hm : m ∈ k.marks)
    (hresolve : k.resolve path mask = .ok m.ino) : (k.addWatch path mask).1 = .ok m.wd := by
  unfold addWatch
  simp only [hresolve]
  cases hfind : k.marks.find? (·.ino = m.ino) with
  | none =>
      have := List.find?_eq_none.mp hfind m hm
      simp at this
  | some m' =>
      have hm' := List.mem_of_find?_eq_some hfind
      have hino : m'.ino = m.ino := by simpa using List.find?_some hfind
      rw [List.inj_on_of_nodup_map h.inodes hm' hm hino]

end Instance

/-! ## What a call can do -/

/-- What a call can do to the maps and the objects while they agree. -/
inductive Effect (s s' : State) : Prop
  /-- a call that throws, or does not concern the wrapper -/
  | none (hpaths : s'.paths = s.paths) (hwatches : s'.watches = s.watches) (hheap : s'.heap = s.heap)
      (hkernel : s.kernel.Keeps s'.kernel)
  | touched (p : Ptr) (w : Watch) (hpath : w.path = (s.heap p).path) (hwd : w.wd = (s.heap p).wd)
      (howner : w.owner = .inotify ↔ (s.heap p).owner = .inotify)
      (henabled : w.owner = .inotify → w.enabled = (s.heap p).enabled)
      (hheap : s'.heap = Function.update s.heap p w) (hpaths : s'.paths = s.paths)
      (hwatches : s'.watches = s.watches) (hkernel : s.kernel.Keeps s'.kernel)
  | joined (p : Ptr) (w : Watch) (hw : w.path = (s.heap p).path) (howner : w.owner = .inotify)
      (hfree : s.paths[(s.heap p).path]? = .none)
      (hnew : w.wd ≠ -1 → s.watches[w.wd]? = .none ∧ 0 < w.wd ∧ w.wd < s'.kernel.next ∧
        s'.kernel.Live w.wd)
      (henabled : w.enabled = true ↔ w.wd ≠ -1)
      (hheap : s'.heap = Function.update s.heap p w)
      (hpaths : s'.paths = s.paths.insertIfNew (s.heap p).path p)
      (hwatches : ∀ wd : Int, s'.watches[wd]? =
        if wd = w.wd ∧ wd ≠ -1 then some p else s.watches[wd]?)
      (hkernel : s.kernel.Keeps s'.kernel)
  | left (p : Ptr) (hp : (s.heap p).owner = .inotify)
      (hheap : s'.heap = Function.update s.heap p { s.heap p with wd := -1, owner := .null })
      (hpaths : s'.paths = s.paths.erase (s.heap p).path)
      (hwatches : ∀ wd : Int, s'.watches[wd]? =
        if wd = (s.heap p).wd then .none else s.watches[wd]?)
      (hkernel : s.kernel.Keeps s'.kernel)
  | switchedOn (p : Ptr) (wd : Int) (hp : (s.heap p).owner = .inotify) (hoff : (s.heap p).wd = -1)
      (hnew : s.watches[wd]? = .none) (hpos : 0 < wd) (hnext : wd < s'.kernel.next)
      (hlive : s'.kernel.Live wd)
      (hheap : s'.heap = Function.update s.heap p { s.heap p with wd, enabled := true })
      (hpaths : s'.paths = s.paths) (hwatches : s'.watches = s.watches.insertIfNew wd p)
      (hkernel : s.kernel.Keeps s'.kernel)
  | switchedOff (p : Ptr) (hp : (s.heap p).owner = .inotify)
      (hheap : s'.heap = Function.update s.heap p { s.heap p with wd := -1, enabled := false })
      (hpaths : s'.paths = s.paths) (hwatches : s'.watches = s.watches.erase (s.heap p).wd)
      (hkernel : s.kernel.Keeps s'.kernel)

theorem Effect.agree (h : Agree s) (he : Effect s s') : Agree s' := by
  cases he with
  | none hpaths hwatches hheap => exact h.congr hpaths hwatches hheap
  | touched p w hpath hwd howner henabled hheap hpaths hwatches =>
      exact h.touch hpath hwd howner henabled hheap hpaths hwatches
  | joined p w hw howner hfree hnew henabled hheap hpaths hwatches =>
      exact h.join hw howner hfree (fun hwd => (hnew hwd).1) henabled hheap hpaths hwatches
  | left p hp hheap hpaths hwatches => exact h.leave hp hheap hpaths hwatches
  | switchedOn p wd hp hoff hnew hpos _ _ hheap hpaths hwatches =>
      exact h.switchOn hp hoff (by omega) hnew hheap hpaths hwatches
  | switchedOff p hp hheap hpaths hwatches => exact h.switchOff hp hheap hpaths hwatches

/-- A descriptor in the maps after a call was there before, or has just been given out. -/
theorem Effect.watches_cases (he : Effect s s') {wd : Int} {p : Ptr}
    (hp : s'.watches[wd]? = some p) :
    s.watches[wd]? = some p ∨ 0 < wd ∧ wd < s'.kernel.next ∧ s'.kernel.Live wd := by
  cases he with
  | none _ hwatches => exact .inl (hwatches ▸ hp)
  | touched _ _ _ _ _ _ _ _ hwatches => exact .inl (hwatches ▸ hp)
  | joined q w _ _ _ hnew _ _ _ hwatches =>
      rw [hwatches] at hp
      split_ifs at hp with heq
      · exact .inr (heq.1 ▸ (hnew (heq.1 ▸ heq.2)).2)
      · exact .inl hp
  | left q _ _ _ hwatches =>
      rw [hwatches] at hp
      split_ifs at hp
      exact .inl hp
  | switchedOn q wd' _ _ hnew hpos hnext hlive _ _ hwatches =>
      rw [hwatches, getElem?_insertIfNew_of_none hnew] at hp
      split_ifs at hp with heq
      · exact .inr (heq ▸ ⟨hpos, hnext, hlive⟩)
      · exact .inl hp
  | switchedOff q _ _ _ hwatches =>
      rw [hwatches, getElem?_erase_eq] at hp
      split_ifs at hp
      exact .inl hp

theorem Effect.keeps (he : Effect s s') : s.kernel.Keeps s'.kernel := by
  cases he <;> assumption

theorem Effect.sound (h : Sound s) (he : Effect s s') : Sound s' := by
  refine ⟨he.keeps.sound h.kernel, fun wd p hp => ?_⟩
  rcases he.watches_cases hp with hp | ⟨hpos, hnext, -⟩
  · have := h.watches wd p hp
    have := he.keeps.next
    omega
  · exact ⟨hpos, hnext⟩

theorem Effect.backed (h : Backed s) (he : Effect s s') : Backed s' := by
  intro wd p hp
  rcases he.watches_cases hp with hp | ⟨-, -, hlive⟩
  · exact he.keeps.backs wd (h wd p hp)
  · exact .inl hlive

end TudorDo.Objects
