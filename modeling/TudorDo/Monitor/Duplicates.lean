import Mathlib.Data.List.Count
import TudorDo.Do
import TudorDo.Monitor.Replay

/-!
# Names listed once

A listing is a vector, and nothing in it keeps a name from standing there twice: the event of a file
that is moved over another one appends the name again. `nodup_listing_iff` gives the exact condition
under which a run of operations keeps every name of a directory listed once, and with it at most one
suggestion for each command (`count_commandRows_le`).
-/

namespace TudorDo.PathMonitor

open Lib

/-! ## One suggestion for each name listed -/

/-- Among listings with different keys, the rows of one key come from one listing. -/
theorem count_rows_le {listings : List (Bytes × List Bytes)}
    (hkeys : listings.Pairwise fun a b => a.1 ≠ b.1) (text : Bytes) {d : Bytes} {listing : List Bytes}
    (hlisting : ∀ l ∈ listings, l.1 = d → l.2 = listing) (n : Bytes) :
    (listings.flatMap fun l => (l.2.filter (Do.startsWith · text)).map fun it =>
      (⟨l.1, it⟩ : Row)).count ⟨d, n⟩ ≤ listing.count n := by
  induction listings with
  | nil => simp
  | cons l listings ih =>
      obtain ⟨hne, hkeys⟩ := List.pairwise_cons.mp hkeys
      rw [List.flatMap_cons, List.count_append]
      by_cases hd : l.1 = d
      · -- the other listings have no row of this key
        have hrest : (listings.flatMap fun l => (l.2.filter (Do.startsWith · text)).map fun it =>
            (⟨l.1, it⟩ : Row)).count ⟨d, n⟩ = 0 := by
          apply List.count_eq_zero.mpr
          intro hmem
          obtain ⟨l', hl', hrow⟩ := List.mem_flatMap.mp hmem
          obtain ⟨it, -, hit⟩ := List.mem_map.mp hrow
          exact hne l' hl' (hd.trans (congrArg Row.dir hit).symm)
        have hhead : ((l.2.filter (Do.startsWith · text)).map fun it => (⟨l.1, it⟩ : Row)).count ⟨d, n⟩
            = (l.2.filter (Do.startsWith · text)).count n := by
          rw [← hd]
          exact List.count_map_of_injective _ _ (fun a b h => congrArg Row.file h) n
        rw [hrest, hhead, ← hlisting l (by simp) hd]
        exact (List.filter_sublist).count_le n
      · have hhead : ((l.2.filter (Do.startsWith · text)).map fun it => (⟨l.1, it⟩ : Row)).count ⟨d, n⟩
            = 0 := by
          apply List.count_eq_zero.mpr
          intro hmem
          obtain ⟨it, -, hit⟩ := List.mem_map.mp hmem
          exact hd (congrArg Row.dir hit)
        rw [hhead, Nat.zero_add]
        exact ih hkeys fun l' hl' => hlisting l' (by simp [hl'])

/-- A command is suggested at most as often as it is listed. -/
theorem count_commandRows_le (m : PathMap) (text d n : Bytes) :
    (Do.commandRows m text).count ⟨d, n⟩ ≤ (m.listing d).count n := by
  refine count_rows_le ?_ text ?_ n
  · apply m.distinct_keys_toList.imp
    intro _ _ h hkey
    exact h (Std.LawfulEqCmp.compare_eq_iff_eq.mpr hkey)
  · rintro ⟨k, listing⟩ hmem rfl
    have hget := Std.ExtTreeMap.mem_toList_iff_getElem?_eq_some.mp hmem
    rw [PathMap.listing, Std.ExtTreeMap.getD_eq_getD_getElem?, hget, Option.getD_some]

/-! ## The listing along a run -/

/-- No command of `d` is listed twice, and none is suggested twice. -/
def NoRepeats (d : Bytes) (m : PathMap) : Prop :=
  (m.listing d).Nodup ∧ ∀ text n, (Do.commandRows m text).count ⟨d, n⟩ ≤ 1

/-- The operation, seen from the listing its event finds, appends a name that is not listed, or
takes one out behind whose first place another element stands. -/
def AppendsNew (d : Bytes) (m : PathMap) (op : DirOp) : Prop :=
  if op.Removes then ∃ a x b, m.listing d = a ++ op.name :: x :: b ∧ op.name ∉ a
  else op.name ∉ m.listing d

theorem noRepeats_iff {d : Bytes} {m : PathMap} : NoRepeats d m ↔ (m.listing d).Nodup := by
  constructor
  · exact And.left
  · intro h
    exact ⟨h, fun text n => (count_commandRows_le m text d n).trans
      (List.nodup_iff_count_le_one.mp h n)⟩

/-- From a listing without repeats, the event of an operation leads to another one exactly when the
operation appends a new name or takes one out that is not the last. -/
theorem noRepeats_step_iff {d : Bytes} (wd : Int) {m : PathMap} {op : DirOp} (h : NoRepeats d m) :
    (∃ m', handleEvent m (opEvent d wd op) = some m' ∧ NoRepeats d m') ↔ AppendsNew d m op := by
  unfold AppendsNew
  simp only [noRepeats_iff] at h ⊢
  by_cases hop : op.Removes
  · rw [if_pos hop, handleEvent_of_removes (removes_opEvent.mpr hop)]
    simp only [Option.ite_none_right_eq_some, Option.some.injEq, ← erasePos_lt_iff]
    constructor
    · rintro ⟨m', ⟨hlt, -⟩, -⟩
      exact hlt
    · intro hlt
      refine ⟨_, ⟨hlt, rfl⟩, ?_⟩
      show (PathMap.listing (m.insert d _) d).Nodup
      rw [PathMap.listing_insert_self]
      exact h.sublist (List.eraseIdx_sublist _ _)
  · rw [if_neg hop, handleEvent_of_adds (adds_opEvent.mpr hop)]
    have hnodup : (PathMap.listing (m.insert d (m.listing d ++ [op.name])) d).Nodup ↔
        op.name ∉ m.listing d := by
      rw [PathMap.listing_insert_self, List.nodup_append_comm, List.singleton_append,
        List.nodup_cons, and_iff_left h]
    constructor
    · rintro ⟨m', hm', hm'nodup⟩
      cases hm'
      exact hnodup.mp hm'nodup
    · intro hnew
      exact ⟨_, rfl, hnodup.mpr hnew⟩

/-- **Names listed once.** Let `d` be watched, with no name listed twice and no event waiting.
Through every sequence of operations possible in `d`, in whatever buffers their events come, no name
of `d` is listed or suggested twice after any of them if and only if each operation finds its name
missing from the listing when it is to be appended, and not last in it when it is to be erased. -/
theorem nodup_listing_iff {s : Loop} {d : Bytes} {wd : Int}
    (hwatch : s.notify.watches[wd]? = some (pathWatch d wd)) (hempty : s.notify.events = [])
    (hinit : (s.path.listing d).Nodup) {D : Directory} {ops : List DirOp}
    (hops : (D.applyAll ops).isSome) :
    (∀ pre, pre <+: ops → ∀ bufs, bufs.flatten = pre.map (DirOp.event wd) →
      ∃ D' s', D.applyAll pre = some D' ∧ run s bufs = .ok s' ∧
        (s'.path.listing d).Nodup ∧ ∀ text n, (Do.commandRows s'.path text).count ⟨d, n⟩ ≤ 1) ↔
      EachStep (replayStep d wd) (fun p op => AppendsNew d p.2 op) (D, s.path) ops := by
  refine (forall_run_iff hwatch hempty fun _ m' => NoRepeats d m').trans ?_
  have hstep : ∀ p op, NoRepeats d p.2 →
      ((∃ p', replayStep d wd p op = some p' ∧ NoRepeats d p'.2) ↔
        (p.1.apply op).isSome ∧ AppendsNew d p.2 op) := by
    rintro ⟨D₁, m₁⟩ op hm₁
    rw [← noRepeats_step_iff wd hm₁]
    cases hD : D₁.apply op with
    | none => simp [replayStep, hD]
    | some D₂ =>
        constructor
        · rintro ⟨⟨D', m'⟩, hstep, hm'⟩
          exact ⟨rfl, m', (replayStep_eq_some.mp hstep).2, hm'⟩
        · rintro ⟨-, m', hm, hm'⟩
          exact ⟨(D₂, m'), replayStep_eq_some.mpr ⟨hD, hm⟩, hm'⟩
  rw [throughout_iff_eachStep hstep (noRepeats_iff.mpr hinit)]
  constructor
  · intro h pre op hpre p hrun
    exact (h pre op hpre p hrun).2
  · intro h pre op hpre p hrun
    exact ⟨isSome_apply_of_run hops hpre hrun, h pre op hpre p hrun⟩

/-- `mv` is created in `/bin`, `ls` is deleted, which takes `cp` off the listing, and another file is
moved over `cp`, which lists it again. -/
def binShuffled : List DirOp :=
  [⟨.create, bytes "mv", false, 0⟩, ⟨.delete, bytes "ls", false, 0⟩,
    ⟨.moveOver, bytes "cp", false, 5⟩]

/-- `nodup_listing_iff` for `binShuffled`. -/
theorem nodup_listing_iff_bin :
    (∀ pre, pre <+: binShuffled → ∀ bufs, bufs.flatten = pre.map (DirOp.event 1) →
      ∃ D' s', binDirectory.applyAll pre = some D' ∧ run binLoop bufs = .ok s' ∧
        (s'.path.listing (bytes "/bin")).Nodup ∧
        ∀ text n, (Do.commandRows s'.path text).count ⟨bytes "/bin", n⟩ ≤ 1) ↔
      EachStep (replayStep (bytes "/bin") 1) (fun p op => AppendsNew (bytes "/bin") p.2 op)
        (binDirectory, binLoop.path) binShuffled :=
  nodup_listing_iff (by decide) rfl (by decide) (by decide)

/-- `grep` is created in `/bin`, and another file is moved over it. -/
def grepReplaced : List DirOp :=
  [⟨.create, bytes "grep", false, 0⟩, ⟨.moveOver, bytes "grep", false, 5⟩]

/-- Another file moved over `grep` is listed as a second `grep`, and both are suggested for `gre`. -/
theorem replaced_name_listed_twice :
    ∃ D' s', binDirectory.applyAll grepReplaced = some D' ∧
      run binLoop [grepReplaced.map (DirOp.event 1)] = .ok s' ∧
      ¬ (s'.path.listing (bytes "/bin")).Nodup ∧
      (Do.onEntryChangedEvent .oneRegularFile []
          { Do.typing (bytes "gre") [] with path := s'.path }).map Do.liststore =
        .ok [⟨bytes "/bin", bytes "grep"⟩, ⟨bytes "/bin", bytes "grep"⟩] :=
  ⟨_, _, rfl, rfl, by decide, by decide +kernel⟩

end TudorDo.PathMonitor
