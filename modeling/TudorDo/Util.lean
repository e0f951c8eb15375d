import TudorDo.Lib.Ascii
import TudorDo.Lib.Str

/-!
# `util.cpp`

`find_and_replace` and `find_last_space_pos`, on which the completion handlers rest, each with what
it computes: replacing from left to right (`findAndReplace_eq`), which escapes and unescapes spaces
(`escapeSpaces_eq`, `unescapeSpaces_eq`, `escapeSpaces_inverse`), and the position of the last space
or, where that one is escaped, of the space before it (`findLastSpacePos_eq`). `upper` and `split` are
what a hotkey is read with.
-/

namespace TudorDo

open Lib Lib.Ascii

/-- What a library call can throw through the code modelled here. -/
inductive Exn
  /-- `std::out_of_range` -/
  | outOfRange
  /-- `Glib::FileError` -/
  | fileError
  deriving DecidableEq

/-- A string operation whose position has to be inside the string. -/
def checked {α : Type} (r : Option α) : Except Exn α :=
  match r with
  | some a => .ok a
  | none => .error .outOfRange

@[simp] theorem checked_some {α : Type} (a : α) : checked (some a) = .ok a := rfl

@[simp] theorem checked_none {α : Type} : checked (none : Option α) = .error .outOfRange := rfl

/-! ## `find_and_replace` -/

/-- The loop of `find_and_replace`, at `pos`. An empty `substr` is found everywhere and the loop
never ends; every caller passes a literal. -/
def findAndReplaceFrom (substr repl : Bytes) (h : substr ≠ []) (str : Bytes) (pos : Nat) : Bytes :=
  match _hf : Str.findFrom str substr pos with
  | none => str
  | some p => findAndReplaceFrom substr repl h (Str.replaceAt str p substr.length repl)
      (p + repl.length)
termination_by str.length - pos
decreasing_by
  have hbound := Str.findFrom_bound _hf
  have hpos := List.length_pos_iff.mpr h
  simp only [Str.replaceAt, List.length_append, List.length_take, List.length_drop]
  omega

/-- `find_and_replace`, with the new value of `str` as its result. -/
def findAndReplace (str substr repl : Bytes) (h : substr ≠ []) : Bytes :=
  findAndReplaceFrom substr repl h str 0

/-- What a round finds behind what is already rewritten, and what it leaves: the rewritten part grown
by the text up to the occurrence and its replacement, and the rest of the text behind it. -/
theorem findAndReplace_round (substr repl done rest : Bytes) :
    (Str.find substr rest = none ∧ Str.findFrom (done ++ rest) substr done.length = none) ∨
      ∃ i, Str.find substr rest = some i ∧
        Str.findFrom (done ++ rest) substr done.length = some (done.length + i) ∧
        Str.replaceAt (done ++ rest) (done.length + i) substr.length repl =
          (done ++ rest.take i ++ repl) ++ rest.drop (i + substr.length) ∧
        done.length + i + repl.length = (done ++ rest.take i ++ repl).length := by
  rw [Str.findFrom_length_append]
  cases hfind : Str.find substr rest with
  | none => exact .inl ⟨rfl, rfl⟩
  | some i =>
      have hbound := Str.find_bound hfind
      refine .inr ⟨i, rfl, rfl, Str.replaceAt_length_append .., ?_⟩
      simp only [List.length_append, List.length_take]
      omega

/-- Behind what is already rewritten, the loop replaces every occurrence in the rest of the text. -/
theorem findAndReplaceFrom_eq {substr : Bytes} (repl : Bytes) (h : substr ≠ [])
    (done rest : Bytes) :
    findAndReplaceFrom substr repl h (done ++ rest) done.length
      = done ++ Str.replaceAll substr repl rest := by
  induction hn : rest.length using Nat.strongRecOn generalizing done rest with
  | _ n ih =>
      rw [findAndReplaceFrom]
      rcases findAndReplace_round substr repl done rest with
        ⟨hrest, hfrom⟩ | ⟨i, hi, hfrom, hcut, hlen⟩
      · rw [Str.replaceAll_of_find_none hrest]
        split
        · rfl
        · next p hsome => rw [hfrom] at hsome; cases hsome
      · have hbound := Str.find_bound hi
        have hpos := List.length_pos_iff.mpr h
        have hlt : (rest.drop (i + substr.length)).length < n := by
          simp only [List.length_drop]
          omega
        split
        · next hnone => rw [hfrom] at hnone; cases hnone
        · next p hsome =>
            obtain rfl : done.length + i = p := Option.some.inj (hfrom.symm.trans hsome)
            rw [hcut, hlen, ih _ hlt _ _ rfl, Str.replaceAll_of_find_some h hi]
            simp

/-- `find_and_replace` reads the text from the left and replaces each occurrence it comes to. -/
theorem findAndReplace_eq (str : Bytes) {substr : Bytes} (repl : Bytes) (h : substr ≠ []) :
    findAndReplace str substr repl h = Str.replaceAll substr repl str := by
  simpa [findAndReplace] using findAndReplaceFrom_eq repl h [] str

/-- `find_and_replace(s, " ", "\\ ")`, which the handlers apply to a path they suggest. -/
def escapeSpaces (s : Bytes) : Bytes := findAndReplace s [space] [backslash, space] (by simp)

/-- `find_and_replace(s, "\\ ", " ")`, which they apply to the directory typed. -/
def unescapeSpaces (s : Bytes) : Bytes := findAndReplace s [backslash, space] [space] (by simp)

theorem escapeSpaces_eq (s : Bytes) : escapeSpaces s = Str.escape backslash space s := by
  rw [escapeSpaces, findAndReplace_eq, Str.replaceAll_eq_escape]

theorem unescapeSpaces_eq (s : Bytes) : unescapeSpaces s = Str.unescape backslash space s := by
  rw [unescapeSpaces, findAndReplace_eq, Str.unescape]

theorem escape_slash (s : Bytes) :
    Str.escape backslash space (slash :: s) = slash :: Str.escape backslash space s :=
  Str.escape_cons_ne slash_ne_space s

/-- Escaping adds no slash. -/
theorem slash_mem_escape {s : Bytes} : slash ∈ Str.escape backslash space s ↔ slash ∈ s :=
  Str.mem_escape_of_ne slash_ne_backslash

theorem escape_ne_nil {s : Bytes} (h : s ≠ []) : Str.escape backslash space s ≠ [] := fun hnil =>
  h (Str.escape_injective backslash_ne_space (hnil.trans Str.escape_nil.symm))

/-- **Escaping and unescaping.** Unescaping gives back what was escaped; escaping gives back what
was unescaped where every space stood behind a backslash. -/
theorem escapeSpaces_inverse :
    (∀ s, unescapeSpaces (escapeSpaces s) = s) ∧
    ∀ t, (∀ l r, t = l ++ space :: r → l.getLast? = some backslash) →
      escapeSpaces (unescapeSpaces t) = t := by
  constructor
  · intro s
    rw [escapeSpaces_eq, unescapeSpaces_eq, Str.unescape_escape backslash_ne_space]
  · intro t h
    rw [escapeSpaces_eq, unescapeSpaces_eq, Str.escape_unescape backslash_ne_space h]

/-- `escapeSpaces_inverse` for a space behind two backslashes. -/
theorem escapeSpaces_inverse_two :
    escapeSpaces (unescapeSpaces (bytes "/a\\\\ b")) = bytes "/a\\\\ b" :=
  escapeSpaces_inverse.2 _ fun _ _ h =>
    Str.getLast?_of_escape_eq backslash_ne_space
      (Eq.trans (show Str.escape backslash space (bytes "/a\\ b") = _ by decide) h)

/-! ## `find_last_space_pos` -/

/-- A `size_type` returned as an `int`: `npos` is `-1`, and a position is reduced to 32 bits. -/
def toInt : Option Nat → Int
  | none => -1
  | some pos => Int.bmod pos 4294967296

/-- `find_last_space_pos`. The `break` ends the loop in its first round, so an escaped last space is
passed over and the space before it is taken as it is. -/
def findLastSpacePos (str : Bytes) : Except Exn Int :=
  match Str.findLastOf space str with
  | none => .ok (toInt none)
  -- `pos - 1` is `npos`, past the end of every string
  | some 0 => .error .outOfRange
  | some (pos + 1) => do
    let before ← checked (Str.substr str pos 1)
    if before = [backslash] then
      let str ← checked (Str.substr str 0 pos)
      .ok (toInt (Str.findLastOf space str))
    else
      .ok (toInt (some (pos + 1)))

/-- A position used as an `int`: converted back to `size_type`, a negative one is past every end. -/
def fromInt (pos : Int) : Option Nat := if 0 ≤ pos then some pos.toNat else none

theorem fromInt_natCast (i : Nat) : fromInt i = some i := by
  simp [fromInt]

/-- `s.substr(pos, -1)`. -/
def substrInt (s : Bytes) (pos : Int) : Except Exn Bytes :=
  checked ((fromInt pos).bind (Str.substrFrom s))

/-- The reduction to 32 bits takes the remainder that is nearest to zero. -/
theorem toInt_some (pos : Nat) :
    toInt (some pos) =
      if pos % 4294967296 < 2147483648 then ((pos % 4294967296 : Nat) : Int)
      else ((pos % 4294967296 : Nat) : Int) - 4294967296 := by
  show Int.bmod pos 4294967296 = _
  rw [Int.bmod_def]
  split_ifs <;> omega

theorem toInt_of_lt {pos : Nat} (h : pos < 2147483648) : toInt (some pos) = pos := by
  rw [toInt_some, if_pos (by omega)]
  omega

/-- A text has no space, or its last one is the first character, or there is a character before it. -/
theorem last_space_cases (s : Bytes) :
    space ∉ s ∨ (∃ r, s = space :: r ∧ space ∉ r) ∨
      ∃ l c r, s = l ++ c :: space :: r ∧ space ∉ r := by
  by_cases hs : space ∈ s
  · obtain ⟨l, r, rfl, hr⟩ := Str.eq_append_cons_of_mem_last hs
    cases l using List.reverseRecOn with
    | nil => exact .inr (.inl ⟨r, rfl, hr⟩)
    | append_singleton l c => exact .inr (.inr ⟨l, c, r, by simp, hr⟩)
  · exact .inl hs

theorem findLastSpacePos_of_not_mem {s : Bytes} (h : space ∉ s) : findLastSpacePos s = .ok (-1) := by
  rw [findLastSpacePos, Str.findLastOf_eq_none.mpr h]
  rfl

/-- With the last space at the very start there is no character before it to look at. -/
theorem findLastSpacePos_start {r : Bytes} (h : space ∉ r) :
    findLastSpacePos (space :: r) = .error .outOfRange := by
  have := Str.findLastOf_append_cons (l := []) h
  rw [findLastSpacePos, show Str.findLastOf space (space :: r) = some 0 from this]

theorem findLastOf_plain {l r : Bytes} {c : UInt8} (hr : space ∉ r) :
    Str.findLastOf space (l ++ c :: space :: r) = some (l.length + 1) := by
  simpa using Str.findLastOf_append_cons (l := l ++ [c]) hr

theorem findLastSpacePos_plain {l r : Bytes} {c : UInt8} (hc : c ≠ backslash) (hr : space ∉ r) :
    findLastSpacePos (l ++ c :: space :: r) = .ok (toInt (some (l.length + 1))) := by
  have hbefore : Str.substr (l ++ c :: space :: r) l.length 1 = some [c] := by
    simp [Str.substr]
  simp [findLastSpacePos, findLastOf_plain hr, hbefore, hc, bind, Except.bind]

/-- An escaped last space is passed over, whatever the space before it is. -/
theorem findLastSpacePos_escaped {l r : Bytes} (hr : space ∉ r) :
    findLastSpacePos (l ++ backslash :: space :: r) = .ok (toInt (Str.findLastOf space l)) := by
  have hbefore : Str.substr (l ++ backslash :: space :: r) l.length 1 = some [backslash] := by
    simp [Str.substr]
  have hcut : Str.substr (l ++ backslash :: space :: r) 0 l.length = some l := by
    simp [Str.substr]
  simp [findLastSpacePos, findLastOf_plain hr, hbefore, hcut, bind, Except.bind]

/-- The space `find_last_space_pos` stops at: the last one or, where that one is escaped, the one
before it. -/
def cutSpace (s : Bytes) : Option Nat :=
  match Str.findLastOf space s with
  | some (pos + 1) =>
    if s[pos]? = some backslash then Str.findLastOf space (s.take pos) else some (pos + 1)
  | r => r

/-- `find_last_space_pos` throws for a text whose last space is its first character. -/
theorem findLastSpacePos_eq (s : Bytes) :
    findLastSpacePos s =
      if Str.findLastOf space s = some 0 then .error .outOfRange else .ok (toInt (cutSpace s)) := by
  unfold cutSpace
  rcases last_space_cases s with hs | ⟨r, rfl, hr⟩ | ⟨l, c, r, rfl, hr⟩
  · rw [findLastSpacePos_of_not_mem hs, Str.findLastOf_eq_none.mpr hs]
    rfl
  · have hlast : Str.findLastOf space (space :: r) = some 0 :=
      Str.findLastOf_append_cons (l := []) hr
    rw [findLastSpacePos_start hr, hlast]
    rfl
  · rw [findLastOf_plain hr]
    by_cases hc : c = backslash
    · subst hc
      simp [findLastSpacePos_escaped hr]
    · simp [findLastSpacePos_plain hc hr, hc]

example : findLastSpacePos (bytes "ls /tmp") = .ok 2 := by decide
-- the second space from the end is escaped too, and is taken all the same
example : findLastSpacePos (bytes "/a\\ b/c\\ d") = .ok 3 := by decide

/-! ## `upper` and `split` -/

/-- `upper`, with the letters of ASCII for those of the locale. -/
def upper (str : Bytes) : Bytes := str.map toUpper

/-- The rounds of the loop of `split`; `item` is what `getline` has read of a line. At the end of the
stream it returns a line only if it has read something. -/
def splitFrom (delim : UInt8) (item : Bytes) : Bytes → List Bytes
  | [] => if item = [] then [] else [item]
  | c :: s => if c = delim then item :: splitFrom delim [] s else splitFrom delim (item ++ [c]) s

/-- `split`. -/
def split (str : Bytes) (delim : UInt8) : List Bytes := splitFrom delim [] str

end TudorDo
