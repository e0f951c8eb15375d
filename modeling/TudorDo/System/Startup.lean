import TudorDo.System.Account

/-!
# Start-up

A directory is listed by `update_path` and watched by the thread that is started afterwards. A file
created in between is in neither the listing nor an event: `startup_iff`.
-/

namespace TudorDo

open Lib PathMonitor

variable {lookup : Bytes → Option Inode} {dirs : List Bytes} {d : Bytes} {ino : Inode}

/-- `d` has been listed and is not watched yet. -/
def InGap (d : Bytes) (ino : Inode) (s : System) : Prop := d ∉ s.unlisted ∧ ino ∉ s.kernel.watched

/-- The events of a directory that one entry of `PATH` names go to the listing of that entry. -/
theorem subscribed_iff_watched {s : System} (h : Inv lookup dirs s)
    (hsole : ∀ d' ∈ dirs, lookup d' = some ino → d' = d) :
    s.Subscribed d ino ↔ ino ∈ s.kernel.watched := by
  constructor
  · exact And.left
  · intro hino
    obtain ⟨w, hw⟩ := h.table.watched ino hino
    obtain ⟨-, hdirs, ino', -, hlookup, hwd⟩ := h.table.watches _ w hw
    rw [← Kernel.wd_injective hino hwd] at hlookup
    exact ⟨hino, w, hw, hsole _ hdirs hlookup⟩

theorem exact_init (files : Inode → Directory) (fd : Nat) (hd : d ∈ dirs) :
    Exact d ino (System.init lookup files dirs fd) := by
  left
  have hne : dirs ≠ [] := List.ne_nil_of_mem hd
  simpa [System.init, System.unlisted, hne] using hd

/-- **Start-up.** Let `d` be the only name in `PATH` of its directory. Through every interleaving of
creations with the steps of the program, once all events are handled every name in the directory is
listed exactly once if and only if none was created in it after it was listed and before it was
watched. -/
theorem startup_iff {files : Inode → Directory} {fd : Nat} (hd : d ∈ dirs)
    (hlookup : lookup d = some ino) (hsole : ∀ d' ∈ dirs, lookup d' = some ino → d' = d)
    {as : List Action} (has : ∀ a ∈ as, a.OnlyCreates) {t : System}
    (hrun : Lib.run System.step (System.init lookup files dirs fd) as = some t)
    (ht : t.Quiescent) :
    (∀ n ∈ (t.files ino).names, (t.path.listing d).count n = 1) ↔
      EachStep System.step (fun s a => (∃ op, a = .op ino op) → ¬ InGap d ino s)
        (System.init lookup files dirs fd) as := by
  have hreported : ∀ (s : System) (a : Action), a.OnlyCreates → Inv lookup dirs s →
      (Reported d ino s a ↔ ((∃ op, a = .op ino op) → ¬ InGap d ino s)) := by
    intro s a _ h
    unfold Reported InGap
    simp only [subscribed_iff_watched h hsole, forall_exists_index, not_and, not_not,
      or_iff_not_imp_left]
  rw [← eachStep_congr_of_invariant (fun s a s' => inv_step) hreported (inv_init files fd) has]
  rcases exact_or_missing (inv_init files fd) hlookup (exact_init files fd hd) has hrun with
    ⟨heach, hexact⟩ | ⟨heach, -, n, hn, hmissing⟩
  · refine iff_of_true (fun n hn => ?_) heach
    have hperm := hexact.resolve_left (ht.not_mem_unlisted d)
    rw [ht.account_eq] at hperm
    rw [hperm.count_eq]
    exact List.count_eq_one_of_mem (t.files ino).nodup hn
  · refine iff_of_false (fun h => ?_) heach
    rw [ht.account_eq] at hmissing
    have := h n hn
    rw [List.count_eq_zero.mpr hmissing] at this
    omega

/-- `/bin`, holding `ls` and `cp`, is the directory `7`; no other path names one. -/
def binLookup (path : Bytes) : Option Inode := if path = bytes "/bin" then some 7 else none

/-- The program started with `/bin` as its `PATH`. -/
def binInit : System := System.init binLookup (fun _ => binDirectory) [bytes "/bin"] 3

def createMv : Action := .op 7 ⟨.create, bytes "mv", false, 0⟩

/-- From `update_path` to the first wait for events, in a `PATH` of one directory. -/
def startup : List Action := List.replicate 6 .prog

theorem binLookup_sole : ∀ d' ∈ [bytes "/bin"], binLookup d' = some 7 → d' = bytes "/bin" := by
  simp

/-- `startup_iff` where `mv` is created before `/bin` is listed. -/
theorem startup_iff_bin :
    ∃ t, Lib.run System.step binInit (createMv :: startup) = some t ∧ t.Quiescent ∧
      EachStep System.step (fun s a => (∃ op, a = .op 7 op) → ¬ InGap (bytes "/bin") 7 s) binInit
        (createMv :: startup) :=
  ⟨_, rfl, ⟨rfl, rfl, rfl⟩,
    (startup_iff (by decide) (by decide) binLookup_sole (by simp [createMv, startup,
      Action.OnlyCreates]) rfl ⟨rfl, rfl, rfl⟩).mp (by decide)⟩

/-- Created right after `/bin` is listed, `mv` is in no listing and no event. -/
theorem created_in_gap_lost :
    ∃ t, Lib.run System.step binInit (.prog :: createMv :: List.replicate 5 .prog) = some t ∧
      t.Quiescent ∧ bytes "mv" ∈ (t.files 7).names ∧
      (t.path.listing (bytes "/bin")).count (bytes "mv") = 0 :=
  ⟨_, rfl, ⟨rfl, rfl, rfl⟩, by decide, by decide⟩

end TudorDo
