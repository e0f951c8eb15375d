import Mathlib.Order.Bounds.Basic
import TudorDo.Util

/-!
# The last separating space

A space separates two words where no backslash escapes it. `find_last_space_pos` is to find the last
such space; its loop ends in the first round, so that it sees past one escaped space and no further,
and it looks at the character before the space without asking whether there is one.
`findLastSpacePos_correct_iff` says for which texts it finds the right one.
-/

namespace TudorDo

open Lib Lib.Ascii

/-- The character at `i` is a space that no backslash escapes. -/
def Separates (s : Bytes) (i : Nat) : Prop :=
  s[i]? = some space ∧ (i = 0 ∨ s[i - 1]? ≠ some backslash)

/-- `p` is the position of the last separating space, `npos` where there is none. -/
def IsLastSeparator (s : Bytes) (p : Int) : Prop :=
  (p = -1 ∧ ∀ i, ¬ Separates s i) ∨ ∃ i : Nat, p = i ∧ IsGreatest {i | Separates s i} i

/-! ## Where the last separating space is -/

theorem IsLastSeparator.unique {s : Bytes} {p q : Int} (hp : IsLastSeparator s p)
    (hq : IsLastSeparator s q) : p = q := by
  rcases hp with ⟨rfl, hp⟩ | ⟨i, rfl, hi⟩ <;> rcases hq with ⟨rfl, hq⟩ | ⟨j, rfl, hj⟩
  · rfl
  · exact absurd hj.1 (hp j)
  · exact absurd hi.1 (hq i)
  · rw [hi.unique hj]

theorem IsLastSeparator.lt_length {s : Bytes} {p : Int} (h : IsLastSeparator s p) :
    -1 ≤ p ∧ p < s.length := by
  rcases h with ⟨rfl, -⟩ | ⟨i, rfl, hi⟩
  · omega
  · have := (List.getElem?_eq_some_iff.mp hi.1.1).1
    omega

theorem isLastSeparator_of_not_mem {s : Bytes} (h : space ∉ s) : IsLastSeparator s (-1) :=
  .inl ⟨rfl, fun _ hi => h (List.mem_of_getElem? hi.1)⟩

/-- Behind the last space there is none. -/
theorem le_of_separates {l r : Bytes} (hr : space ∉ r) {i : Nat}
    (hi : Separates (l ++ space :: r) i) : i ≤ l.length := by
  by_contra hlt
  obtain ⟨j, rfl⟩ : ∃ j, i = l.length + (j + 1) := ⟨i - l.length - 1, by omega⟩
  have := hi.1
  rw [List.getElem?_append_right (by omega), Nat.add_sub_cancel_left, List.getElem?_cons_succ] at this
  exact hr (List.mem_of_getElem? this)

/-- The last space is the last separating one if it is not escaped. -/
theorem isLastSeparator_of_not_escaped {l r : Bytes} (hl : l.getLast? ≠ some backslash)
    (hr : space ∉ r) : IsLastSeparator (l ++ space :: r) l.length := by
  refine .inr ⟨l.length, rfl, ⟨by simp, ?_⟩, fun i hi => le_of_separates hr hi⟩
  by_cases hne : l = []
  · exact .inl (by rw [hne]; rfl)
  · right
    have hpos := List.length_pos_iff.mpr hne
    rw [List.getElem?_append_left (by omega), ← List.getLast?_eq_getElem?]
    exact hl

theorem separates_append_of_lt (l r : Bytes) {i : Nat} (hi : i < l.length) :
    Separates (l ++ r) i ↔ Separates l i := by
  unfold Separates
  rw [List.getElem?_append_left hi, List.getElem?_append_left (by omega)]

/-- An escaped last space counts for nothing. -/
theorem isLastSeparator_escaped_iff {l r : Bytes} (hr : space ∉ r) {p : Int} :
    IsLastSeparator (l ++ backslash :: space :: r) p ↔ IsLastSeparator l p := by
  have hsep : ∀ i, Separates (l ++ backslash :: space :: r) i ↔ Separates l i := by
    intro i
    by_cases hi : i < l.length
    · exact separates_append_of_lt l _ hi
    refine iff_of_false (fun h => ?_) fun h => hi (List.getElem?_eq_some_iff.mp h.1).1
    -- the backslash is no space, and the space is escaped by it
    have hle : i ≤ (l ++ [backslash]).length := le_of_separates hr (by simpa using h)
    rw [List.length_append, List.length_singleton] at hle
    obtain rfl | rfl : i = l.length ∨ i = l.length + 1 := by omega
    · have := h.1
      rw [List.getElem?_append_right (Nat.le_refl _), Nat.sub_self] at this
      exact backslash_ne_space (Option.some.inj this)
    · have := h.2
      simp at this
  unfold IsLastSeparator
  simp only [hsep]

/-! ## Which one is found -/

theorem toInt_eq_self_iff {k : Nat} : toInt (some k) = k ↔ k < 2147483648 := by
  constructor
  · intro h
    rw [toInt_some] at h
    split_ifs at h <;> omega
  · exact toInt_of_lt

/-- The reduction to 32 bits can only give a position before `k`, or `npos`, in a very long text. -/
theorem le_of_toInt_lt {k : Nat} (h₁ : -1 ≤ toInt (some k)) (h₂ : toInt (some k) < k) :
    4294967295 ≤ k := by
  rw [toInt_some] at h₁ h₂
  split_ifs at h₁ h₂ <;> omega

/-- The texts in which `find_last_space_pos` sees the last separating space. -/
inductive LastSpaceInSight : Bytes → Prop
  | none {s : Bytes} (hs : space ∉ s) : LastSpaceInSight s
  /-- the last space is not escaped, and not the first character -/
  | plain {l r : Bytes} {c : UInt8} (hc : c ≠ backslash) (hr : space ∉ r)
      (hlen : l.length + 1 < 2147483648) : LastSpaceInSight (l ++ c :: space :: r)
  /-- the last space is escaped and there is no other -/
  | escaped {l r : Bytes} (hl : space ∉ l) (hr : space ∉ r) :
      LastSpaceInSight (l ++ backslash :: space :: r)
  /-- the last space is escaped and the one before it is the first character -/
  | escapedStart {m r : Bytes} (hm : space ∉ m) (hr : space ∉ r) :
      LastSpaceInSight (space :: m ++ backslash :: space :: r)
  /-- the last space is escaped and the one before it is not -/
  | escapedPlain {l m r : Bytes} {c : UInt8} (hc : c ≠ backslash) (hm : space ∉ m) (hr : space ∉ r)
      (hlen : l.length + 1 < 2147483648) :
      LastSpaceInSight (l ++ c :: space :: m ++ backslash :: space :: r)
  /-- both are escaped, and the position of the one before the last is reduced to the right one -/
  | wrapped {l m r : Bytes} (hm : space ∉ m) (hr : space ∉ r) (hlen : 4294967295 ≤ l.length + 1)
      (hl : IsLastSeparator l (toInt (some (l.length + 1)))) :
      LastSpaceInSight (l ++ backslash :: space :: m ++ backslash :: space :: r)

theorem isLastSeparator_plain {l r : Bytes} {c : UInt8} (hc : c ≠ backslash) (hr : space ∉ r) :
    IsLastSeparator (l ++ c :: space :: r) (l.length + 1 : Nat) := by
  have h := isLastSeparator_of_not_escaped (l := l ++ [c]) (by simpa using hc) hr
  simpa using h

/-- **The last separating space.** `find_last_space_pos` returns its position, or `npos` where there
is none, exactly for these texts. -/
theorem findLastSpacePos_correct_iff (s : Bytes) :
    (∃ p, findLastSpacePos s = .ok p ∧ IsLastSeparator s p) ↔ LastSpaceInSight s := by
  constructor
  · rintro ⟨p, hp, hsep⟩
    rcases last_space_cases s with hs | ⟨r, rfl, hr⟩ | ⟨l, c, r, rfl, hr⟩
    · exact .none hs
    · rw [findLastSpacePos_start hr] at hp
      cases hp
    by_cases hc : c = backslash
    · subst hc
      rw [findLastSpacePos_escaped hr] at hp
      rw [isLastSeparator_escaped_iff hr] at hsep
      obtain rfl := Except.ok.inj hp
      rcases last_space_cases l with hl | ⟨m, rfl, hm⟩ | ⟨l, c, m, rfl, hm⟩
      · exact .escaped hl hr
      · exact .escapedStart hm hr
      rw [findLastOf_plain hm] at hsep
      by_cases hc : c = backslash
      · subst hc
        rw [isLastSeparator_escaped_iff hm] at hsep
        have hlt := hsep.lt_length
        exact .wrapped hm hr (le_of_toInt_lt hlt.1 (by omega)) hsep
      · have heq := hsep.unique (isLastSeparator_plain hc hm)
        exact .escapedPlain hc hm hr (toInt_eq_self_iff.mp heq)
    · rw [findLastSpacePos_plain hc hr] at hp
      obtain rfl := Except.ok.inj hp
      have heq := hsep.unique (isLastSeparator_plain hc hr)
      exact .plain hc hr (toInt_eq_self_iff.mp heq)
  · intro h
    cases h with
    | none hs => exact ⟨-1, findLastSpacePos_of_not_mem hs, isLastSeparator_of_not_mem hs⟩
    | @plain l r c hc hr hlen =>
        refine ⟨(l.length + 1 : Nat), ?_, isLastSeparator_plain hc hr⟩
        rw [findLastSpacePos_plain hc hr, toInt_of_lt hlen]
    | escaped hl hr =>
        refine ⟨-1, ?_, (isLastSeparator_escaped_iff hr).mpr (isLastSeparator_of_not_mem hl)⟩
        rw [findLastSpacePos_escaped hr, Str.findLastOf_eq_none.mpr hl]
        rfl
    | @escapedStart m r hm hr =>
        have hfirst : Str.findLastOf space (space :: m) = some 0 :=
          Str.findLastOf_append_cons (l := []) hm
        refine ⟨0, ?_, (isLastSeparator_escaped_iff hr).mpr ?_⟩
        · rw [findLastSpacePos_escaped hr, hfirst]
          rfl
        · exact isLastSeparator_of_not_escaped (l := []) (by simp) hm
    | @escapedPlain l m r c hc hm hr hlen =>
        refine ⟨(l.length + 1 : Nat), ?_, (isLastSeparator_escaped_iff hr).mpr
          (isLastSeparator_plain hc hm)⟩
        rw [findLastSpacePos_escaped hr, findLastOf_plain hm, toInt_of_lt hlen]
    | wrapped hm hr hlen hl =>
        refine ⟨_, ?_, (isLastSeparator_escaped_iff hr).mpr ((isLastSeparator_escaped_iff hm).mpr hl)⟩
        rw [findLastSpacePos_escaped hr, findLastOf_plain hm]

/-- Two escaped spaces, of which the first is taken for a separating one; and a space at the start,
before which `find_last_space_pos` looks for a backslash. -/
theorem last_space_missed :
    (findLastSpacePos (bytes "a\\ b\\ c") = .ok 2 ∧ IsLastSeparator (bytes "a\\ b\\ c") (-1)) ∧
      findLastSpacePos (bytes " ls") = .error .outOfRange ∧ IsLastSeparator (bytes " ls") 0 := by
  refine ⟨⟨by decide, ?_⟩, by decide, ?_⟩
  · have h : IsLastSeparator (bytes "a" ++ backslash :: space :: bytes "b") (-1) :=
      (isLastSeparator_escaped_iff (by decide)).mpr (isLastSeparator_of_not_mem (by decide))
    exact (isLastSeparator_escaped_iff (l := bytes "a\\ b") (r := bytes "c") (by decide)).mpr h
  · exact isLastSeparator_of_not_escaped (l := []) (r := bytes "ls") (by simp) (by decide)

end TudorDo
