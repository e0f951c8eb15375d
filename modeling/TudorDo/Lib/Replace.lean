import TudorDo.Lib.Str

/-!
# Search and replace

`Replaces pat repl s t` says what replacing means without saying how it is done: `s` is cut at the
first occurrence of `pat`, what is behind it is cut in the same way, and `t` has `repl` where the
occurrences were. `replaces_iff`: the function `replaceAll` computes this, and nothing else does.
-/

namespace TudorDo.Lib.Str

variable {α : Type*} [DecidableEq α]

/-! ## The first occurrence -/

theorem find_eq_none_iff {pat s : List α} : find pat s = none ↔ ¬ pat <:+: s := by
  induction s with
  | nil => simp [find]
  | cons x s ih =>
      rw [List.infix_cons_iff, not_or, ← ih, find]
      split_ifs with hp
      · simp [hp]
      · simp [hp]

theorem exists_of_find {pat s : List α} {i : Nat} (h : find pat s = some i) :
    ∃ l r, s = l ++ pat ++ r ∧ l.length = i := by
  induction s generalizing i with
  | nil =>
      rw [find, Option.ite_none_right_eq_some] at h
      obtain ⟨rfl, h⟩ := h
      exact ⟨[], [], rfl, Option.some.inj h⟩
  | cons x s ih =>
      rw [find] at h
      split_ifs at h with hp
      · obtain ⟨r, hr⟩ := hp
        exact ⟨[], r, hr.symm, Option.some.inj h⟩
      · obtain ⟨j, hj, rfl⟩ := Option.map_eq_some_iff.mp h
        obtain ⟨l, r, rfl, rfl⟩ := ih hj
        exact ⟨x :: l, r, rfl, rfl⟩

/-- No occurrence stands before the one found. -/
theorem exists_find_le (l pat r : List α) : ∃ i ≤ l.length, find pat (l ++ pat ++ r) = some i := by
  induction l with
  | nil =>
      refine ⟨0, Nat.le_refl 0, ?_⟩
      rw [List.nil_append]
      cases hs : pat ++ r with
      | nil => simp [find, (List.append_eq_nil_iff.mp hs).1]
      | cons x s => rw [find, if_pos (hs ▸ List.prefix_append pat r)]
  | cons x l ih =>
      obtain ⟨i, hi, hfind⟩ := ih
      rw [List.cons_append, List.cons_append, find]
      split_ifs
      · exact ⟨0, Nat.zero_le _, rfl⟩
      · exact ⟨i + 1, Nat.succ_le_succ hi, by rw [hfind]; rfl⟩

theorem find_eq_some_iff {pat s : List α} {i : Nat} :
    find pat s = some i ↔
      (∃ l r, s = l ++ pat ++ r ∧ l.length = i) ∧ ∀ l r, s = l ++ pat ++ r → i ≤ l.length := by
  constructor
  · intro h
    refine ⟨exists_of_find h, ?_⟩
    rintro l r rfl
    obtain ⟨j, hj, hfind⟩ := exists_find_le l pat r
    obtain rfl : i = j := Option.some.inj (h.symm.trans hfind)
    exact hj
  · rintro ⟨⟨l, r, rfl, rfl⟩, hfirst⟩
    obtain ⟨j, hj, hfind⟩ := exists_find_le l pat r
    obtain ⟨l', r', heq, rfl⟩ := exists_of_find hfind
    rw [hfind, Nat.le_antisymm hj (hfirst l' r' heq)]

/-! ## Replacing -/

/-- `t` is `s` with every occurrence of `pat` replaced by `repl`, each of them the first one behind
the one before. -/
inductive Replaces (pat repl : List α) : List α → List α → Prop
  | none {s : List α} (h : ¬ pat <:+: s) : Replaces pat repl s s
  | next {l r t : List α} (first : ∀ l' r', l ++ pat ++ r = l' ++ pat ++ r' → l.length ≤ l'.length)
      (h : Replaces pat repl r t) : Replaces pat repl (l ++ pat ++ r) (l ++ repl ++ t)

theorem replaceAll_at {pat repl l r : List α} (hpat : pat ≠ [])
    (first : ∀ l' r', l ++ pat ++ r = l' ++ pat ++ r' → l.length ≤ l'.length) :
    replaceAll pat repl (l ++ pat ++ r) = l ++ repl ++ replaceAll pat repl r := by
  have hfind : find pat (l ++ pat ++ r) = some l.length :=
    find_eq_some_iff.mpr ⟨⟨l, r, rfl, rfl⟩, first⟩
  have htake : (l ++ pat ++ r).take l.length = l := by
    rw [List.append_assoc, List.take_left' rfl]
  have hdrop : (l ++ pat ++ r).drop (l.length + pat.length) = r := by
    rw [← List.length_append, List.drop_left' rfl]
  rw [replaceAll_of_find_some hpat hfind, htake, hdrop]

theorem replaces_replaceAll {pat : List α} (hpat : pat ≠ []) (repl s : List α) :
    Replaces pat repl s (replaceAll pat repl s) := by
  induction hn : s.length using Nat.strongRecOn generalizing s with
  | _ n ih =>
      cases hfind : find pat s with
      | none =>
          rw [replaceAll_of_find_none hfind]
          exact .none (find_eq_none_iff.mp hfind)
      | some i =>
          obtain ⟨⟨l, r, rfl, rfl⟩, hfirst⟩ := find_eq_some_iff.mp hfind
          have hpos := List.length_pos_iff.mpr hpat
          have hlt : r.length < n := by
            simp only [List.length_append] at hn
            omega
          rw [replaceAll_at hpat hfirst]
          exact .next hfirst (ih _ hlt r rfl)

theorem replaces_iff {pat : List α} (hpat : pat ≠ []) {repl s t : List α} :
    Replaces pat repl s t ↔ replaceAll pat repl s = t := by
  constructor
  · intro h
    induction h with
    | none h => exact replaceAll_of_find_none (find_eq_none_iff.mpr h)
    | next hfirst h ih =>
        rw [replaceAll_at hpat hfirst, ih]
  · rintro rfl
    exact replaces_replaceAll hpat repl s

end TudorDo.Lib.Str
