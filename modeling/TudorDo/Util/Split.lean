import TudorDo.Util

/-!
# Pieces of a string

`split` reads a string up to a delimiter at a time. Compared with `List.splitOn`, it leaves out an
empty piece at the end and nothing else (`split_eq`), so that joining the pieces gives the string
back but for a delimiter it ends in, and pieces that are joined are read back: `split_roundtrip`.
-/

namespace TudorDo

open Lib

variable {delim : UInt8}

/-- The pieces without an empty last one. -/
def dropEmptyLast (pieces : List Bytes) : List Bytes :=
  if pieces.getLast? = some [] then pieces.dropLast else pieces

theorem dropEmptyLast_append_of_ne (pieces : List Bytes) {last : Bytes} (h : last ≠ []) :
    dropEmptyLast (pieces ++ [last]) = pieces ++ [last] := by
  rw [dropEmptyLast, if_neg]
  simpa using h

theorem dropEmptyLast_append_nil (pieces : List Bytes) :
    dropEmptyLast (pieces ++ [[]]) = pieces := by
  simp [dropEmptyLast]

theorem dropEmptyLast_append (pieces : List Bytes) {rest : List Bytes} (h : rest ≠ []) :
    dropEmptyLast (pieces ++ rest) = pieces ++ dropEmptyLast rest := by
  cases rest using List.reverseRecOn with
  | nil => exact absurd rfl h
  | append_singleton rest last =>
      rw [← List.append_assoc]
      by_cases hlast : last = []
      · subst hlast
        rw [dropEmptyLast_append_nil, dropEmptyLast_append_nil]
      · rw [dropEmptyLast_append_of_ne _ hlast, dropEmptyLast_append_of_ne _ hlast,
          List.append_assoc]

/-- The pieces from where the loop is, with `item` read of the first one. -/
theorem splitFrom_eq {item : Bytes} (hitem : delim ∉ item) (s : Bytes) :
    splitFrom delim item s = dropEmptyLast ((item ++ s).splitOn delim) := by
  induction s generalizing item with
  | nil =>
      rw [List.append_nil, List.splitOn_eq_singleton hitem, splitFrom]
      by_cases h : item = []
      · subst h
        rfl
      · rw [if_neg h]
        exact (dropEmptyLast_append_of_ne [] h).symm
  | cons c s ih =>
      rw [splitFrom]
      by_cases hc : c = delim
      · subst hc
        rw [if_pos rfl, ih List.not_mem_nil, List.splitOn_append_cons_self_of_not_mem hitem]
        exact (dropEmptyLast_append [item] (List.splitOn_ne_nil c s)).symm
      · have hitem' : delim ∉ item ++ [c] := by
          simp [hitem, Ne.symm hc]
        rw [if_neg hc, ih hitem', List.append_assoc, List.singleton_append]

/-- `split` is `List.splitOn` but for an empty piece at the end. -/
theorem split_eq (s : Bytes) : split s delim = dropEmptyLast (s.splitOn delim) :=
  splitFrom_eq List.not_mem_nil s

theorem not_mem_of_mem_splitFrom {item : Bytes} (hitem : delim ∉ item) {s w : Bytes}
    (hw : w ∈ splitFrom delim item s) : delim ∉ w := by
  induction s generalizing item with
  | nil =>
      rw [splitFrom] at hw
      split_ifs at hw
      · cases hw
      · rw [List.mem_singleton.mp hw]
        exact hitem
  | cons c s ih =>
      rw [splitFrom] at hw
      split_ifs at hw with hc
      · rcases List.mem_cons.mp hw with rfl | hw
        · exact hitem
        · exact ih List.not_mem_nil hw
      · refine ih ?_ hw
        simp [hitem, Ne.symm hc]

theorem intercalate_append_singleton {pieces : List Bytes} (h : pieces ≠ []) (last : Bytes) :
    [delim].intercalate (pieces ++ [last]) = [delim].intercalate pieces ++ delim :: last := by
  induction pieces with
  | nil => exact absurd rfl h
  | cons w pieces ih =>
      cases pieces with
      | nil => simp
      | cons w' pieces =>
          have ih := ih (by simp)
          rw [List.cons_append] at ih
          rw [List.cons_append, List.cons_append, List.intercalate_cons_cons, ih,
            List.intercalate_cons_cons]
          simp only [List.append_assoc]

/-- Joining the pieces gives the string back but for a delimiter at its end. -/
theorem intercalate_split (s : Bytes) :
    [delim].intercalate (split s delim) =
      if s.getLast? = some delim then s.dropLast else s := by
  cases h : s.splitOn delim using List.reverseRecOn with
  | nil => exact absurd h (List.splitOn_ne_nil delim s)
  | append_singleton pieces last =>
      have hsplit : split s delim = dropEmptyLast (pieces ++ [last]) := by rw [split_eq, h]
      have hjoin : [delim].intercalate (pieces ++ [last]) = s := by
        rw [← h]
        exact List.intercalate_splitOn delim
      by_cases hlast : last = []
      · -- what is dropped is the end of the string, behind its last delimiter
        subst hlast
        rw [hsplit, dropEmptyLast_append_nil]
        by_cases hpieces : pieces = []
        · subst hpieces
          obtain rfl : [] = s := by simpa using hjoin
          rfl
        · rw [← hjoin, intercalate_append_singleton hpieces]
          simp
      · have hmem : last ∈ split s delim := by
          rw [hsplit, dropEmptyLast_append_of_ne pieces hlast]
          simp
        have hdelim : last.getLast? ≠ some delim := fun hend =>
          not_mem_of_mem_splitFrom List.not_mem_nil hmem (List.mem_of_getLast? hend)
        have hend : s.getLast? = last.getLast? := by
          by_cases hpieces : pieces = []
          · subst hpieces
            rw [← hjoin]
            simp
          · rw [← hjoin, intercalate_append_singleton hpieces, List.getLast?_append,
              List.getLast?_cons_of_ne_nil hlast, List.getLast?_eq_some_getLast hlast,
              Option.some_or]
        rw [hsplit, dropEmptyLast_append_of_ne pieces hlast, hjoin, hend, if_neg hdelim]

/-- **Splitting loses nothing.** No piece has the delimiter in it, and joining the pieces gives the
string back but for a delimiter it ends in; pieces without the delimiter, of which the last is not
empty, are read back from the string they are joined to. -/
theorem split_roundtrip (delim : UInt8) :
    (∀ s, (∀ w ∈ split s delim, delim ∉ w) ∧
      [delim].intercalate (split s delim) =
        if s.getLast? = some delim then s.dropLast else s) ∧
    ∀ pieces : List Bytes, pieces ≠ [] → (∀ w ∈ pieces, delim ∉ w) → pieces.getLast? ≠ some [] →
      split ([delim].intercalate pieces) delim = pieces := by
  refine ⟨fun s => ⟨fun w hw => ?_, intercalate_split s⟩, fun pieces hne hpieces hlast => ?_⟩
  · exact not_mem_of_mem_splitFrom List.not_mem_nil hw
  · rw [split_eq, List.splitOn_intercalate delim hpieces hne, dropEmptyLast, if_neg hlast]

/-- `split_roundtrip` for a `PATH` with an empty piece in front and one in the middle. -/
theorem split_roundtrip_path :
    split (bytes ":/bin::/sbin") 0x3A = [[], bytes "/bin", [], bytes "/sbin"] :=
  (split_roundtrip 0x3A).2 [[], bytes "/bin", [], bytes "/sbin"] (by decide) (by decide) (by decide)

end TudorDo
