import TudorDo.Lib.Components
import TudorDo.Monitor.Replay

/-!
# Events of different directories

An event changes the listing of its own directory, and whether its erase is valid is decided by that
listing alone (`handleListing`). The listings are the components of `m_path`, so that it does not
matter how the events of different directories are interleaved: `interleavings_agree`.
-/

namespace TudorDo.PathMonitor

open Lib

/-- What the body of the event loop does to the listing of the event's directory, `none` where
`m_path` has no such key. -/
def handleListing (listing : Option (List Bytes)) (event : InotifyEvent) :
    Option (Option (List Bytes)) :=
  if Adds event then some (some (listing.getD [] ++ [event.name]))
  else if Removes event then
    if erasePos (listing.getD []) event.name < (listing.getD []).length then
      some (some ((listing.getD []).eraseIdx (erasePos (listing.getD []) event.name)))
    else none
  else some listing

theorem listing_eq_getD (m : PathMap) (d : Bytes) : m.listing d = m[d]?.getD [] :=
  Std.ExtTreeMap.getD_eq_getD_getElem?

theorem getElem?_insert_self (m : PathMap) (d : Bytes) (l : List Bytes) :
    (m.insert d l)[d]? = some l :=
  Std.ExtTreeMap.getElem?_insert_self

theorem getElem?_insert_of_ne (m : PathMap) {d d' : Bytes} (h : d' ≠ d) (l : List Bytes) :
    (m.insert d l)[d']? = m[d']? := by
  rw [Std.ExtTreeMap.getElem?_insert, if_neg]
  exact fun heq => h (Std.LawfulEqCmp.compare_eq_iff_eq.mp heq).symm

/-- Handling an event leaves `m_path` alone, or writes one listing under the event's directory if the
event is valid at all; `handleListing` says which. -/
theorem handleEvent_cases (m : PathMap) (event : InotifyEvent) :
    (handleEvent m event = some m ∧
      handleListing m[event.watch.path]? event = some m[event.watch.path]?) ∨
    ∃ r : Option (List Bytes), handleEvent m event = r.map (m.insert event.watch.path) ∧
      handleListing m[event.watch.path]? event = r.map some := by
  unfold handleListing
  rw [← listing_eq_getD]
  by_cases hadds : Adds event
  · right
    rw [handleEvent_of_adds hadds, if_pos hadds]
    exact ⟨some _, rfl, rfl⟩
  by_cases hremoves : Removes event
  · right
    rw [handleEvent_of_removes hremoves, if_neg hadds, if_pos hremoves]
    split_ifs
    · exact ⟨some _, rfl, rfl⟩
    · exact ⟨none, rfl, rfl⟩
  · left
    rw [handleEvent_of_other hadds hremoves, if_neg hadds, if_neg hremoves]
    exact ⟨rfl, rfl⟩

/-- The listings are separate components. -/
theorem components_handleEvent :
    Components handleEvent (fun event => event.watch.path) (fun (m : PathMap) d => m[d]?)
      handleListing where
  ext m m' h := Std.ExtTreeMap.ext_getElem? fun d => congrFun h d
  act_eq m event m' h := by
    rcases handleEvent_cases m event with ⟨hm, hl⟩ | ⟨r, hm, hl⟩
    · rw [hm] at h
      cases h
      exact hl
    · rw [hm] at h
      obtain ⟨l, rfl, rfl⟩ := Option.map_eq_some_iff.mp h
      rw [hl, getElem?_insert_self]
      rfl
  frame m event m' h d hd := by
    rcases handleEvent_cases m event with ⟨hm, -⟩ | ⟨r, hm, -⟩
    · rw [hm] at h
      cases h
      rfl
    · rw [hm] at h
      obtain ⟨l, -, rfl⟩ := Option.map_eq_some_iff.mp h
      exact getElem?_insert_of_ne m hd l
  isSome m event h := by
    rcases handleEvent_cases m event with ⟨hm, -⟩ | ⟨r, hm, hl⟩
    · rw [hm]
      rfl
    · rw [hl, Option.isSome_map] at h
      rw [hm, Option.isSome_map]
      exact h

/-- **Events of different directories.** Two sequences that have the same events of each directory,
in the same order for each, both come to an erase that is not valid, or both lead to the same
listings; and a run leaves a directory without events as it was. -/
theorem interleavings_agree (m : PathMap) {es fs : List InotifyEvent}
    (heq : ∀ d, (es.filter fun event => event.watch.path = d) =
      fs.filter fun event => event.watch.path = d) :
    ((handleEvents m es = none ∧ handleEvents m fs = none) ∨
      ∃ m', handleEvents m es = some m' ∧ handleEvents m fs = some m') ∧
    ∀ m', handleEvents m es = some m' → ∀ d, (∀ event ∈ es, event.watch.path ≠ d) →
      m'[d]? = m[d]? := by
  have hrun : handleEvents m es = handleEvents m fs :=
    components_handleEvent.run_eq_of_filter_eq heq m
  constructor
  · cases h : handleEvents m es with
    | none => exact .inl ⟨rfl, hrun ▸ h⟩
    | some m' => exact .inr ⟨m', rfl, hrun ▸ h⟩
  · intro m' hm' d hd
    exact components_handleEvent.run_frame hm' hd

/-- `mv` is created in `/bin`. -/
def mvInBin : InotifyEvent := opEvent (bytes "/bin") 1 ⟨.create, bytes "mv", false, 0⟩

/-- `cc` is deleted from `/usr/bin`. -/
def ccFromUsrBin : InotifyEvent := opEvent (bytes "/usr/bin") 2 ⟨.delete, bytes "cc", false, 0⟩

/-- Both directories are listed, `/usr/bin` with `cc` and `ld`. -/
def twoListings : PathMap := binLoop.path.insert (bytes "/usr/bin") [bytes "cc", bytes "ld"]

/-- `interleavings_agree` for these two events in either order. -/
theorem interleavings_agree_two :
    ((handleEvents twoListings [mvInBin, ccFromUsrBin] = none ∧
        handleEvents twoListings [ccFromUsrBin, mvInBin] = none) ∨
      ∃ m', handleEvents twoListings [mvInBin, ccFromUsrBin] = some m' ∧
        handleEvents twoListings [ccFromUsrBin, mvInBin] = some m') ∧
    ∀ m', handleEvents twoListings [mvInBin, ccFromUsrBin] = some m' → ∀ d,
      (∀ event ∈ [mvInBin, ccFromUsrBin], event.watch.path ≠ d) → m'[d]? = twoListings[d]? := by
  apply interleavings_agree twoListings
  intro d
  have hne : mvInBin.watch.path ≠ ccFromUsrBin.watch.path := by decide
  by_cases hd : mvInBin.watch.path = d
  · have hd' : ccFromUsrBin.watch.path ≠ d := fun h => hne (hd.trans h.symm)
    simp [hd, hd']
  · simp [List.filter_cons, hd]

end TudorDo.PathMonitor
