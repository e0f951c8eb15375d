import Mathlib.Algebra.Group.Nat.Defs
import TudorDo.Lib.Ascii

/-!
# Numbers in memory

A number of fixed width as a little-endian machine stores it, lowest byte first, and a string of C:
its bytes up to the first that is zero. What is read at an offset is given by the bytes from there
on; `none` where they do not suffice.
-/

namespace TudorDo.Lib

/-- The low `width` bytes of a number. -/
def toBytes : Nat → Nat → Bytes
  | 0, _ => []
  | width + 1, n => UInt8.ofNat n :: toBytes width (n / 256)

def ofBytes : Bytes → Nat
  | [] => 0
  | b :: bs => b.toNat + 256 * ofBytes bs

@[simp] theorem length_toBytes (width n : Nat) : (toBytes width n).length = width := by
  induction width generalizing n with
  | zero => rfl
  | succ width ih => rw [toBytes, List.length_cons, ih]

theorem ofBytes_toBytes {width n : Nat} (h : n < 256 ^ width) : ofBytes (toBytes width n) = n := by
  induction width generalizing n with
  | zero =>
      rw [Nat.pow_zero] at h
      rw [toBytes, ofBytes]
      omega
  | succ width ih =>
      have hrest : n / 256 < 256 ^ width := by
        rw [Nat.pow_succ] at h
        omega
      rw [toBytes, ofBytes, ih hrest, UInt8.toNat_ofNat']
      omega

/-- The four bytes at an offset, as a number. -/
def word (buf : Bytes) (i : Nat) : Option Nat :=
  if i + 4 ≤ buf.length then some (ofBytes ((buf.drop i).take 4)) else none

theorem word_of_drop {buf rest : Bytes} {i n : Nat} (hbuf : buf.drop i = toBytes 4 n ++ rest)
    (hn : n < 4294967296) : word buf i = some n := by
  have hlength := congrArg List.length hbuf
  rw [List.length_drop, List.length_append, length_toBytes] at hlength
  rw [word, if_pos (by omega), hbuf, List.take_left' (length_toBytes 4 n), ofBytes_toBytes hn]

theorem drop_add_of_drop {buf front rest : Bytes} {i : Nat} (hbuf : buf.drop i = front ++ rest) :
    buf.drop (i + front.length) = rest := by
  rw [← List.drop_drop, hbuf, List.drop_left]

/-- A string of C. -/
def cString (bs : Bytes) : Option Bytes := if 0 ∈ bs then some (bs.takeWhile (· ≠ 0)) else none

theorem cString_append {s : Bytes} (hs : 0 ∉ s) (rest : Bytes) : cString (s ++ 0 :: rest) = some s := by
  have hne : ∀ b ∈ s, decide (b ≠ 0) = true := by
    intro b hb
    apply decide_eq_true
    rintro rfl
    exact hs hb
  rw [cString, if_pos (by simp), List.takeWhile_append_of_pos hne]
  simp

end TudorDo.Lib
