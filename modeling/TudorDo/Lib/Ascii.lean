import TudorDo.Lib.Utf8

/-!
# Byte strings and the ASCII characters in them
-/

namespace TudorDo.Lib

/-- A byte string. -/
abbrev Bytes := List UInt8

/-- The bytes of a literal. -/
def bytes (lit : String) : Bytes := Utf8.encode lit.toList

namespace Ascii

abbrev tab : UInt8 := 0x09
abbrev newline : UInt8 := 0x0A
abbrev space : UInt8 := 0x20
abbrev dquote : UInt8 := 0x22
abbrev dollar : UInt8 := 0x24
abbrev squote : UInt8 := 0x27
abbrev plus : UInt8 := 0x2B
abbrev slash : UInt8 := 0x2F
abbrev backslash : UInt8 := 0x5C
abbrev backquote : UInt8 := 0x60
abbrev tilde : UInt8 := 0x7E

theorem backslash_ne_space : backslash ≠ space := by decide

theorem slash_ne_space : slash ≠ space := by decide

theorem slash_ne_backslash : slash ≠ backslash := by decide

/-- Every byte of `s` is an ASCII character. -/
def IsAscii (s : Bytes) : Prop := ∀ b ∈ s, b < 0x80

instance (s : Bytes) : Decidable (IsAscii s) := List.decidableBAll (fun b => b < 0x80) s

theorem IsAscii.of_subset {s t : Bytes} (h : IsAscii t) (hst : s ⊆ t) : IsAscii s :=
  fun b hb => h b (hst hb)

/-- `A`–`Z` to `a`–`z`, every other byte unchanged. -/
def toLower (b : UInt8) : UInt8 := if 0x41 ≤ b ∧ b ≤ 0x5A then b + 0x20 else b

/-- The bytes that are no letter and no image of one stay what they are, and nothing else becomes
one of them. -/
theorem toLower_eq_iff {b c : UInt8} (hc : c < 0x41 ∨ 0x5A < c ∧ c < 0x61 ∨ 0x7A < c) :
    toLower b = c ↔ b = c := by
  unfold toLower
  split
  · next h =>
      simp only [UInt8.le_iff_toNat_le, UInt8.lt_iff_toNat_lt, ← UInt8.toNat_inj,
        UInt8.toNat_add] at h hc ⊢
      change 65 ≤ b.toNat ∧ b.toNat ≤ 90 at h
      change c.toNat < 65 ∨ 90 < c.toNat ∧ c.toNat < 97 ∨ 122 < c.toNat at hc
      show (b.toNat + 32) % 2 ^ 8 = c.toNat ↔ _
      omega
  · exact Iff.rfl

theorem toLower_lt {b : UInt8} (hb : b < 0x80) : toLower b < 0x80 := by
  unfold toLower
  split
  · next h =>
      simp only [UInt8.le_iff_toNat_le, UInt8.lt_iff_toNat_lt, UInt8.toNat_add] at h ⊢
      change 65 ≤ b.toNat ∧ b.toNat ≤ 90 at h
      show (b.toNat + 32) % 2 ^ 8 < 128
      omega
  · exact hb

/-- `a`–`z` to `A`–`Z`, every other byte unchanged. -/
def toUpper (b : UInt8) : UInt8 := if 0x61 ≤ b ∧ b ≤ 0x7A then b - 0x20 else b

end Ascii

end TudorDo.Lib
