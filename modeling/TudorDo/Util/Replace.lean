import TudorDo.Lib.Replace
import TudorDo.Util

/-!
# The loop of `find_and_replace`

The text grows or shrinks while it is searched, but a round always leaves less of it behind its
position. So the loop ends, after one round for each occurrence and one in which none is found, and
it ends with every occurrence replaced: `findAndReplace_replaces`.
-/

namespace TudorDo

open Lib

/-- The loop of `find_and_replace` for at most so many rounds, `none` if it goes on after them. -/
def findAndReplaceRounds (substr repl : Bytes) : Nat → Bytes → Nat → Option Bytes
  | 0, _, _ => none
  | n + 1, str, pos =>
    match Str.findFrom str substr pos with
    | none => some str
    | some pos =>
      findAndReplaceRounds substr repl n (Str.replaceAt str pos substr.length repl)
        (pos + repl.length)

/-- What is behind the position has room for one occurrence less after every round. -/
theorem findAndReplaceRounds_eq {substr : Bytes} (repl : Bytes) (h : substr ≠ []) {n : Nat}
    (done rest : Bytes) (hn : rest.length < n * substr.length) :
    findAndReplaceRounds substr repl n (done ++ rest) done.length =
      some (done ++ Str.replaceAll substr repl rest) := by
  induction n generalizing done rest with
  | zero => simp at hn
  | succ n ih =>
      rw [findAndReplaceRounds]
      rcases findAndReplace_round substr repl done rest with
        ⟨hrest, hfrom⟩ | ⟨i, hi, hfrom, hcut, hlen⟩
      · rw [hfrom, Str.replaceAll_of_find_none hrest]
      · have hbound := Str.find_bound hi
        have hrest : (rest.drop (i + substr.length)).length < n * substr.length := by
          rw [Nat.succ_mul] at hn
          simp only [List.length_drop]
          omega
        rw [hfrom]
        show findAndReplaceRounds substr repl n (Str.replaceAt (done ++ rest) (done.length + i)
          substr.length repl) (done.length + i + repl.length) = _
        rw [hcut, hlen, ih _ _ hrest, Str.replaceAll_of_find_some h hi]
        simp

/-- **Search and replace.** With something to search for, the loop ends after as many rounds as
occurrences have room in the text, and one more. It ends with the text in which the occurrences are
replaced, each one looked for behind the one before. -/
theorem findAndReplace_replaces (str : Bytes) {substr : Bytes} (repl : Bytes) (h : substr ≠ []) :
    (∀ n, str.length < n * substr.length →
      findAndReplaceRounds substr repl n str 0 = some (findAndReplace str substr repl h)) ∧
    ∀ t, Str.Replaces substr repl str t ↔ findAndReplace str substr repl h = t := by
  rw [findAndReplace_eq]
  constructor
  · intro n hn
    exact findAndReplaceRounds_eq repl h [] str hn
  · intro t
    exact Str.replaces_iff h

/-- `findAndReplace_replaces` for a replacement that has the string searched for in it. -/
theorem findAndReplace_replaces_self :
    findAndReplaceRounds (bytes "aa") (bytes "aaa") 4 (bytes "baaaab") 0 =
      some (findAndReplace (bytes "baaaab") (bytes "aa") (bytes "aaa") (by decide)) ∧
    Str.Replaces (bytes "aa") (bytes "aaa") (bytes "baaaab") (bytes "baaaaaab") :=
  ⟨(findAndReplace_replaces (bytes "baaaab") (bytes "aaa") (by decide)).1 4 (by decide),
    ((findAndReplace_replaces (bytes "baaaab") (bytes "aaa") (by decide)).2 _).mpr
      (by decide +kernel)⟩

end TudorDo
