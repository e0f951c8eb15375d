import Mathlib.Data.List.Infix

/-!
# UTF-8 text as bytes, addressed by character

A text is kept as its bytes, but a position in it may count bytes or count characters. `chars` cuts
a byte string into its characters the way a reader of UTF-8 does, by the width its lead byte
announces; on the encoding of a list of characters it finds exactly their encodings
(`chars_encode`).

The two ways of counting agree up to a position exactly when everything before it is ASCII:
`ascii_take_iff`.
-/

namespace TudorDo.Lib.Utf8

/-- The UTF-8 encoding of a text. -/
def encode (cs : List Char) : List UInt8 := cs.flatMap String.utf8EncodeChar

/-- The number of bytes of the character that starts with `b`. -/
def width (b : UInt8) : Nat :=
  if b < 0xC0 then 1
  else if b < 0xE0 then 2
  else if b < 0xF0 then 3
  else if b < 0xF8 then 4
  else if b < 0xFC then 5
  else if b < 0xFE then 6
  else 1

/-- Cut a byte string into characters. -/
def chars : List UInt8 → List (List UInt8)
  | [] => []
  | b :: s => (b :: s.take (width b - 1)) :: chars (s.drop (width b - 1))
termination_by s => s.length
decreasing_by
  simp only [List.length_drop, List.length_cons]
  omega

@[simp] theorem chars_nil : chars [] = [] := by rw [chars]

theorem chars_cons (b : UInt8) (s : List UInt8) :
    chars (b :: s) = (b :: s.take (width b - 1)) :: chars (s.drop (width b - 1)) := by
  rw [chars]

/-- Cutting a text loses nothing. -/
@[simp] theorem flatten_chars (s : List UInt8) : (chars s).flatten = s := by
  induction hn : s.length using Nat.strongRecOn generalizing s with
  | _ n ih =>
      cases s with
      | nil => simp
      | cons b s =>
          have hlt : (s.drop (width b - 1)).length < n := by
            simp only [List.length_drop, List.length_cons] at hn ⊢
            omega
          rw [chars_cons, List.flatten_cons, ih _ hlt _ rfl]
          simp

/-- An ASCII byte is a character of its own. -/
theorem chars_of_ascii {s : List UInt8} (h : ∀ b ∈ s, b < 0x80) : chars s = s.map fun b => [b] := by
  induction s with
  | nil => simp
  | cons b s ih =>
      have hb : b < 0xC0 := UInt8.lt_trans (h b (by simp)) (by decide)
      have hw : width b = 1 := by simp [width, hb]
      rw [chars_cons, hw]
      simpa using ih fun x hx => h x (by simp [hx])

/-! ## One character -/

/-- A character is one ASCII byte, or a lead byte and the bytes it announces, none of them ASCII. -/
theorem utf8EncodeChar_cases (c : Char) :
    (∃ b, b < 0x80 ∧ String.utf8EncodeChar c = [b]) ∨
    ∃ b s, String.utf8EncodeChar c = b :: s ∧ s ≠ [] ∧ width b = s.length + 1 ∧
      ∀ x ∈ b :: s, ¬ x < 0x80 := by
  -- so that the lead byte of four is below `0xF8`
  have hmax : c.val.toNat < 0x110000 := by
    have := c.valid
    rcases this with h | h
    · exact Nat.lt_trans h (by decide)
    · exact h.2
  unfold String.utf8EncodeChar
  simp only
  split
  · next h =>
      refine .inl ⟨_, ?_, rfl⟩
      rw [UInt8.lt_iff_toNat_lt, UInt8.toNat_ofNat']
      show c.val.toNat % 256 < 128
      omega
  · have htail : ∀ n, ¬ UInt8.ofNat (n % 64 + 128) < 0x80 := by
      intro n
      rw [UInt8.lt_iff_toNat_lt, UInt8.toNat_ofNat']
      show ¬ (n % 64 + 128) % 256 < 128
      omega
    have hlead : ∀ n, 192 ≤ n → n < 256 → ¬ UInt8.ofNat n < 0x80 := by
      intro n h₁ h₂
      rw [UInt8.lt_iff_toNat_lt, UInt8.toNat_ofNat']
      show ¬ n % 256 < 128
      omega
    right
    split
    -- two bytes, then three, then four
    · refine ⟨_, _, rfl, by simp, ?_, ?_⟩
      · simp only [width, UInt8.lt_iff_toNat_lt, UInt8.toNat_ofNat']
        show (if _ < 192 then 1 else if _ < 224 then 2 else _) = 2
        rw [if_neg (by omega), if_pos (by omega)]
      · intro x hx
        rcases List.mem_cons.mp hx with rfl | hx
        · exact hlead _ (by omega) (by omega)
        · rw [List.mem_singleton.mp hx]
          exact htail _
    · split
      · refine ⟨_, _, rfl, by simp, ?_, ?_⟩
        · simp only [width, UInt8.lt_iff_toNat_lt, UInt8.toNat_ofNat']
          show (if _ < 192 then 1 else if _ < 224 then 2 else if _ < 240 then 3 else _) = 3
          rw [if_neg (by omega), if_neg (by omega), if_pos (by omega)]
        · intro x hx
          rcases List.mem_cons.mp hx with rfl | hx
          · exact hlead _ (by omega) (by omega)
          · simp only [List.mem_cons, List.not_mem_nil, or_false] at hx
            rcases hx with rfl | rfl <;> exact htail _
      · refine ⟨_, _, rfl, by simp, ?_, ?_⟩
        · simp only [width, UInt8.lt_iff_toNat_lt, UInt8.toNat_ofNat']
          show (if _ < 192 then 1 else if _ < 224 then 2 else if _ < 240 then 3 else
            if _ < 248 then 4 else _) = 4
          rw [if_neg (by omega), if_neg (by omega), if_neg (by omega), if_pos (by omega)]
        · intro x hx
          rcases List.mem_cons.mp hx with rfl | hx
          · exact hlead _ (by omega) (by omega)
          · simp only [List.mem_cons, List.not_mem_nil, or_false] at hx
            rcases hx with rfl | rfl | rfl <;> exact htail _

theorem utf8EncodeChar_ne_nil (c : Char) : String.utf8EncodeChar c ≠ [] := by
  rcases utf8EncodeChar_cases c with ⟨b, -, h⟩ | ⟨b, s, h, -⟩ <;> simp [h]

theorem chars_utf8EncodeChar_append (c : Char) (s : List UInt8) :
    chars (String.utf8EncodeChar c ++ s) = String.utf8EncodeChar c :: chars s := by
  rcases utf8EncodeChar_cases c with ⟨b, hb, h⟩ | ⟨b, t, h, -, hw, -⟩
  · have hw : width b = 1 := by simp [width, UInt8.lt_trans hb (by decide : (0x80 : UInt8) < 0xC0)]
    rw [h, List.cons_append, List.nil_append, chars_cons, hw]
    simp
  · rw [h, List.cons_append, chars_cons, hw]
    simp

/-! ## Texts -/

@[simp] theorem encode_nil : encode [] = [] := rfl

@[simp] theorem encode_cons (c : Char) (cs : List Char) :
    encode (c :: cs) = String.utf8EncodeChar c ++ encode cs := by
  simp [encode]

@[simp] theorem encode_append (cs ds : List Char) : encode (cs ++ ds) = encode cs ++ encode ds := by
  simp [encode]

/-- The characters found in an encoded text are those that were encoded. -/
theorem chars_encode (cs : List Char) : chars (encode cs) = cs.map String.utf8EncodeChar := by
  induction cs with
  | nil => simp
  | cons c cs ih => rw [encode_cons, chars_utf8EncodeChar_append, ih, List.map_cons]

theorem length_le_length_encode (cs : List Char) : cs.length ≤ (encode cs).length := by
  induction cs with
  | nil => simp
  | cons c cs ih =>
      have := List.length_pos_iff.mpr (utf8EncodeChar_ne_nil c)
      rw [encode_cons, List.length_append, List.length_cons]
      omega

/-- A text has as many bytes as characters exactly when it is ASCII. -/
theorem length_encode_eq_iff (cs : List Char) :
    (encode cs).length = cs.length ↔ ∀ b ∈ encode cs, b < 0x80 := by
  induction cs with
  | nil => simp
  | cons c cs ih =>
      have hle := length_le_length_encode cs
      simp only [encode_cons, List.length_append, List.length_cons, List.mem_append, or_imp,
        forall_and, ← ih]
      rcases utf8EncodeChar_cases c with ⟨b, hb, h⟩ | ⟨b, s, h, hs, -, hx⟩
      · simp only [h, List.length_singleton, List.mem_singleton, forall_eq, hb, true_and]
        omega
      · have hpos := List.length_pos_iff.mpr hs
        constructor
        · intro hlen
          rw [h, List.length_cons] at hlen
          omega
        · intro hall
          exact absurd (hall.1 b (by simp [h])) (hx b (by simp))

theorem encode_take_append_drop (cs : List Char) (i : Nat) :
    encode (cs.take i) ++ encode (cs.drop i) = encode cs := by
  rw [← encode_append, List.take_append_drop]

/-- Everything before the byte position `i` is ASCII exactly when `i` is a character position too,
with as many characters before it as bytes. -/
theorem ascii_take_iff {cs : List Char} {i : Nat} (hi : i ≤ (encode cs).length) :
    (∀ b ∈ (encode cs).take i, b < 0x80) ↔ i ≤ cs.length ∧ (encode (cs.take i)).length = i := by
  constructor
  · intro h
    induction cs generalizing i with
    | nil =>
        obtain rfl : i = 0 := by simpa using hi
        simp
    | cons c cs ih =>
        cases i with
        | zero => simp
        | succ i =>
            rcases utf8EncodeChar_cases c with ⟨b, -, hc⟩ | ⟨b, s, hc, -, -, hall⟩
            · simp only [encode_cons, hc, List.singleton_append, List.length_cons,
                List.take_succ_cons, List.mem_cons, forall_eq_or_imp] at hi h ⊢
              have ⟨hle, hlen⟩ := ih (by omega) h.2
              exact ⟨by omega, by omega⟩
            · -- the lead byte of a longer character is not ASCII
              refine absurd (h b ?_) (hall b (by simp))
              simp [hc]
  · rintro ⟨hle, hlen⟩
    have htake : (encode cs).take i = encode (cs.take i) := by
      rw [← encode_take_append_drop cs i, List.take_append_of_le_length (by omega),
        List.take_of_length_le (by omega)]
    rw [htake, ← length_encode_eq_iff, hlen, List.length_take]
    omega

end TudorDo.Lib.Utf8
