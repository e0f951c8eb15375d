import Mathlib.Data.List.Infix

/-!
# Strings with positions

The operations of a C++ string that address it by position, over lists of any character type. A
position that has to be inside the string and is not makes the operation throw, here `none`; a
search that finds nothing (`npos`) is `none` as well.

`replaceAll` is what a search-and-replace is for, said without positions: reading from the left,
each occurrence of the pattern found is replaced, and reading goes on behind it.
-/

namespace TudorDo.Lib.Str

variable {α : Type*} [DecidableEq α]

/-- `substr(pos, n)`. -/
def substr (s : List α) (pos n : Nat) : Option (List α) :=
  if pos ≤ s.length then some ((s.drop pos).take n) else none

/-- `substr(pos, npos)`: everything from `pos` on. -/
def substrFrom (s : List α) (pos : Nat) : Option (List α) :=
  if pos ≤ s.length then some (s.drop pos) else none

/-- `find_last_of(c)`: the position of the last `c`. -/
def findLastOf (c : α) : List α → Option Nat
  | [] => none
  | x :: s =>
    match findLastOf c s with
    | some i => some (i + 1)
    | none => if x = c then some 0 else none

/-- `find(pat)`: the first position at which `pat` occurs. -/
def find (pat : List α) : List α → Option Nat
  | [] => if pat = [] then some 0 else none
  | x :: s => if pat <+: x :: s then some 0 else (find pat s).map (· + 1)

/-- `find(pat, pos)`: the first position from `pos` on at which `pat` occurs. -/
def findFrom (s pat : List α) (pos : Nat) : Option Nat :=
  if pos ≤ s.length then (find pat (s.drop pos)).map (pos + ·) else none

/-- `replace(pos, n, repl)`, with `pos` inside the string. -/
def replaceAt (s : List α) (pos n : Nat) (repl : List α) : List α :=
  s.take pos ++ repl ++ s.drop (pos + n)

/-! ## The last position of a character -/

theorem findLastOf_eq_none {c : α} {s : List α} : findLastOf c s = none ↔ c ∉ s := by
  induction s with
  | nil => simp [findLastOf]
  | cons x s ih =>
      cases h : findLastOf c s with
      | some i =>
          have hmem : c ∈ s := by
            by_contra hc
            rw [ih.mpr hc] at h
            cases h
          simp [findLastOf, h, hmem]
      | none =>
          have hmem : c ∉ s := ih.mp h
          by_cases hx : x = c
          · simp [findLastOf, h, hx]
          · simp [findLastOf, h, hx, hmem, Ne.symm hx]

/-- The last `c` stands where no other `c` follows it. -/
theorem findLastOf_append_cons {c : α} {l r : List α} (hr : c ∉ r) :
    findLastOf c (l ++ c :: r) = some l.length := by
  induction l with
  | nil => simp [findLastOf, findLastOf_eq_none.mpr hr]
  | cons x l ih => simp [findLastOf, ih]

/-- Its position does not change when other characters do. -/
theorem findLastOf_map {f : α → α} {c : α} (hf : ∀ x, f x = c ↔ x = c) (s : List α) :
    findLastOf c (s.map f) = findLastOf c s := by
  induction s with
  | nil => rfl
  | cons x s ih => simp [findLastOf, ih, hf]

/-- A string holds a character either nowhere or last somewhere. -/
theorem eq_append_cons_of_mem_last {c : α} {s : List α} (h : c ∈ s) :
    ∃ l r, s = l ++ c :: r ∧ c ∉ r := by
  induction s with
  | nil => simp at h
  | cons x s ih =>
      by_cases hs : c ∈ s
      · obtain ⟨l, r, rfl, hr⟩ := ih hs
        exact ⟨x :: l, r, rfl, hr⟩
      · have hx : c = x := by simpa [hs] using h
        exact ⟨[], s, by rw [hx]; rfl, hs⟩

/-- There is only one place where it stands last. -/
theorem append_cons_inj {c : α} {l r l' r' : List α} (hr : c ∉ r) (hr' : c ∉ r')
    (h : l ++ c :: r = l' ++ c :: r') : l = l' ∧ r = r' := by
  have hlast := findLastOf_append_cons (l := l) hr
  rw [h, findLastOf_append_cons hr'] at hlast
  obtain ⟨hl, hcons⟩ := List.append_inj h (Option.some.inj hlast).symm
  exact ⟨hl, (List.cons.inj hcons).2⟩

theorem findLastOf_eq_some {c : α} {s : List α} {i : Nat} :
    findLastOf c s = some i ↔ ∃ l r, s = l ++ c :: r ∧ c ∉ r ∧ l.length = i := by
  constructor
  · intro h
    have hmem : c ∈ s := by
      by_contra hnone
      rw [findLastOf_eq_none.mpr hnone] at h
      cases h
    obtain ⟨l, r, rfl, hr⟩ := eq_append_cons_of_mem_last hmem
    rw [findLastOf_append_cons hr] at h
    exact ⟨l, r, rfl, hr, Option.some.inj h⟩
  · rintro ⟨l, r, rfl, hr, rfl⟩
    exact findLastOf_append_cons hr

/-! ## The first occurrence of a pattern -/

theorem find_bound {pat s : List α} {i : Nat} (h : find pat s = some i) :
    i + pat.length ≤ s.length := by
  induction s generalizing i with
  | nil =>
      by_cases hp : pat = []
      · have hi : i = 0 := by simpa [find, hp] using h.symm
        simp [hi, hp]
      · simp [find, hp] at h
  | cons x s ih =>
      by_cases hp : pat <+: x :: s
      · have hi : i = 0 := by simpa [find, hp] using h.symm
        have := hp.length_le
        omega
      · obtain ⟨j, hj, rfl⟩ : ∃ j, find pat s = some j ∧ j + 1 = i := by simpa [find, hp] using h
        have := ih hj
        simp only [List.length_cons]
        omega

theorem findFrom_bound {s pat : List α} {pos i : Nat} (h : findFrom s pat pos = some i) :
    pos ≤ i ∧ i + pat.length ≤ s.length := by
  unfold findFrom at h
  split at h
  · next hpos =>
      obtain ⟨j, hj, rfl⟩ := Option.map_eq_some_iff.mp h
      have := find_bound hj
      rw [List.length_drop] at this
      omega
  · cases h

theorem findFrom_length_append (l s pat : List α) :
    findFrom (l ++ s) pat l.length = (find pat s).map (l.length + ·) := by
  simp [findFrom]

omit [DecidableEq α] in
theorem replaceAt_length_append (l s : List α) (i n : Nat) (repl : List α) :
    replaceAt (l ++ s) (l.length + i) n repl = l ++ s.take i ++ repl ++ s.drop (i + n) := by
  rw [replaceAt, Nat.add_assoc, List.take_length_add_append, List.drop_length_add_append]

/-! ## Replacing every occurrence -/

/-- Read `s` from the left and replace each occurrence of `pat` found; what a replacement put there
is not read again. -/
def replaceAll (pat repl : List α) : List α → List α
  | [] => []
  | x :: s =>
    if pat <+: x :: s then repl ++ replaceAll pat repl (s.drop (pat.length - 1))
    else x :: replaceAll pat repl s
termination_by s => s.length
decreasing_by
  · simp only [List.length_drop, List.length_cons]
    omega
  · simp

@[simp] theorem replaceAll_nil (pat repl : List α) : replaceAll pat repl [] = [] := by
  rw [replaceAll]

theorem replaceAll_cons (pat repl : List α) (x : α) (s : List α) :
    replaceAll pat repl (x :: s) =
      if pat <+: x :: s then repl ++ replaceAll pat repl (s.drop (pat.length - 1))
      else x :: replaceAll pat repl s := by
  rw [replaceAll]

theorem replaceAll_prefix {pat repl s : List α} (hpat : pat ≠ []) :
    replaceAll pat repl (pat ++ s) = repl ++ replaceAll pat repl s := by
  cases pat with
  | nil => exact absurd rfl hpat
  | cons a pat =>
      rw [List.cons_append, replaceAll_cons, if_pos (by simp)]
      simp

/-- Without an occurrence nothing is replaced. -/
theorem replaceAll_of_find_none {pat repl s : List α} (h : find pat s = none) :
    replaceAll pat repl s = s := by
  induction s with
  | nil => simp
  | cons x s ih =>
      by_cases hp : pat <+: x :: s
      · simp [find, hp] at h
      · have hs : find pat s = none := by simpa [find, hp] using h
        rw [replaceAll_cons, if_neg hp, ih hs]

/-- At the first occurrence the text is cut in three, and only the last part is read on. -/
theorem replaceAll_of_find_some {pat repl s : List α} (hpat : pat ≠ []) {i : Nat}
    (h : find pat s = some i) :
    replaceAll pat repl s = s.take i ++ repl ++ replaceAll pat repl (s.drop (i + pat.length)) := by
  induction s generalizing i with
  | nil => simp [find, hpat] at h
  | cons x s ih =>
      by_cases hp : pat <+: x :: s
      · have hi : i = 0 := by simpa [find, hp] using h.symm
        obtain ⟨r, hr⟩ := hp
        rw [hi, ← hr, replaceAll_prefix hpat]
        simp
      · obtain ⟨j, hj, rfl⟩ : ∃ j, find pat s = some j ∧ j + 1 = i := by simpa [find, hp] using h
        rw [replaceAll_cons, if_neg hp, ih hj, Nat.add_right_comm, List.drop_succ_cons]
        simp

/-! ## Escaping one character

`escape b c` puts a `b` before every `c`; `unescape b c` takes the `b` out of every `b c`. They are
the two replacements of `c` by `b c` and back. -/

/-- Put `b` before every `c`. -/
def escape (b c : α) (s : List α) : List α := s.flatMap fun x => if x = c then [b, c] else [x]

/-- Take out every `b` that stands before a `c`. -/
def unescape (b c : α) (s : List α) : List α := replaceAll [b, c] [c] s

variable {b c : α}

@[simp] theorem escape_nil : escape b c [] = [] := rfl

theorem escape_cons_self (s : List α) : escape b c (c :: s) = b :: c :: escape b c s := by
  simp [escape]

theorem escape_cons_ne {x : α} (hx : x ≠ c) (s : List α) :
    escape b c (x :: s) = x :: escape b c s := by
  simp [escape, hx]

@[simp] theorem escape_append (s t : List α) :
    escape b c (s ++ t) = escape b c s ++ escape b c t := by
  simp [escape]

theorem escape_of_not_mem {s : List α} (h : c ∉ s) : escape b c s = s := by
  induction s with
  | nil => rfl
  | cons x s ih =>
      have hx : x ≠ c := fun hx => h (by simp [hx])
      rw [escape_cons_ne hx, ih fun hs => h (by simp [hs])]

theorem mem_escape_self {s : List α} : c ∈ escape b c s ↔ c ∈ s := by
  constructor
  · intro h
    by_contra hs
    exact hs (by rwa [escape_of_not_mem hs] at h)
  · intro h
    exact List.mem_flatMap.mpr ⟨c, h, by simp⟩

/-- Escaping adds no character but `b`. -/
theorem mem_escape_of_ne {x : α} (hx : x ≠ b) {s : List α} : x ∈ escape b c s ↔ x ∈ s := by
  induction s with
  | nil => simp
  | cons y s ih =>
      by_cases hy : y = c
      · subst hy
        simp [escape_cons_self, ih, hx]
      · simp [escape_cons_ne hy, ih]

theorem replaceAll_eq_escape (s : List α) : replaceAll [c] [b, c] s = escape b c s := by
  induction s with
  | nil => simp
  | cons x s ih =>
      by_cases hx : x = c
      · subst hx
        rw [replaceAll_cons, if_pos (by simp), escape_cons_self]
        simp [ih]
      · rw [replaceAll_cons, if_neg (by simpa using Ne.symm hx), escape_cons_ne hx, ih]

@[simp] theorem unescape_nil : unescape b c [] = [] := by
  simp [unescape]

theorem unescape_pair (s : List α) : unescape b c (b :: c :: s) = c :: unescape b c s := by
  unfold unescape
  rw [replaceAll_cons, if_pos (by simp)]
  simp

theorem unescape_cons_ne {x : α} (hx : x ≠ b) (s : List α) :
    unescape b c (x :: s) = x :: unescape b c s := by
  unfold unescape
  rw [replaceAll_cons, if_neg]
  simp [Ne.symm hx]

theorem unescape_cons_of_head_ne {s : List α} (x : α) (hs : s.head? ≠ some c) :
    unescape b c (x :: s) = x :: unescape b c s := by
  unfold unescape
  rw [replaceAll_cons, if_neg]
  rintro ⟨t, ht⟩
  cases s with
  | nil => simp at ht
  | cons y s => simp_all

theorem head?_escape_ne (hbc : b ≠ c) (s : List α) : (escape b c s).head? ≠ some c := by
  cases s with
  | nil => simp
  | cons x s =>
      by_cases hx : x = c
      · subst hx
        simpa [escape_cons_self] using hbc
      · simpa [escape_cons_ne hx] using hx

/-- What was escaped is got back. -/
theorem unescape_escape (hbc : b ≠ c) (s : List α) : unescape b c (escape b c s) = s := by
  induction s with
  | nil => simp
  | cons x s ih =>
      by_cases hx : x = c
      · subst hx
        rw [escape_cons_self, unescape_pair, ih]
      · rw [escape_cons_ne hx, unescape_cons_of_head_ne x (head?_escape_ne hbc s), ih]

/-- A text ends in the character its escaped form ends in. -/
theorem getLast?_escape (s : List α) : (escape b c s).getLast? = s.getLast? := by
  cases s using List.reverseRecOn with
  | nil => rfl
  | append_singleton s x =>
      rw [escape_append, List.getLast?_append, List.getLast?_append]
      by_cases hx : x = c
      · simp [escape, hx]
      · simp [escape, hx]

/-- A piece cut off the front of an escaped text is an escaped piece of the text, or was cut off
between a `c` and its `b`. -/
theorem prefix_escape {q s : List α} (h : q <+: escape b c s) :
    (∃ m, m <+: s ∧ q = escape b c m) ∨ ∃ m, m ++ [c] <+: s ∧ q = escape b c m ++ [b] := by
  induction s generalizing q with
  | nil => exact .inl ⟨[], by simp, by simpa using h⟩
  | cons x s ih =>
      by_cases hx : x = c
      · subst hx
        rw [escape_cons_self] at h
        match q with
        | [] => exact .inl ⟨[], by simp⟩
        | [y] =>
            -- cut between the `b` and the `c` it escapes
            obtain rfl : y = b := by simpa using h
            exact .inr ⟨[], by simp⟩
        | y :: z :: q =>
            obtain ⟨rfl, rfl, hq⟩ : y = b ∧ z = x ∧ q <+: escape b x s := by
              simpa [List.cons_prefix_cons] using h
            rcases ih hq with ⟨m, hm, rfl⟩ | ⟨m, hm, rfl⟩
            · exact .inl ⟨z :: m, by simpa using hm, by rw [escape_cons_self]⟩
            · exact .inr ⟨z :: m, by simpa using hm, by rw [escape_cons_self]; rfl⟩
      · rw [escape_cons_ne hx] at h
        match q with
        | [] => exact .inl ⟨[], by simp⟩
        | y :: q =>
            obtain ⟨rfl, hq⟩ := List.cons_prefix_cons.mp h
            rcases ih hq with ⟨m, hm, rfl⟩ | ⟨m, hm, rfl⟩
            · exact .inl ⟨y :: m, by simpa using hm, by rw [escape_cons_ne hx]⟩
            · exact .inr ⟨y :: m, by simpa using hm, by rw [escape_cons_ne hx]; rfl⟩

/-- What starts a text and its escaped form alike holds no `c`; characters may be identified, as
long as `b` and `c` are not. -/
theorem not_mem_of_prefix_escape {β : Type*} {f : α → β} (hf : f b ≠ f c) {q s : List α}
    (h : q <+: s) (hesc : q.map f <+: (escape b c s).map f) : c ∉ q := by
  induction q generalizing s with
  | nil => simp
  | cons x q ih =>
      obtain ⟨t, rfl⟩ := h
      by_cases hx : x = c
      · subst hx
        -- the escaped text has a `b` where the text has its `c`
        rw [List.cons_append, escape_cons_self] at hesc
        exact absurd (List.cons_prefix_cons.mp hesc).1.symm hf
      · rw [List.cons_append, escape_cons_ne hx] at hesc
        have := ih (List.prefix_append q t) (List.cons_prefix_cons.mp hesc).2
        simpa [Ne.symm hx] using this

theorem prefix_escape_of_not_mem {q s : List α} (h : q <+: s) (hq : c ∉ q) :
    q <+: escape b c s := by
  obtain ⟨t, rfl⟩ := h
  rw [escape_append, escape_of_not_mem hq]
  exact List.prefix_append _ _

theorem escape_injective (hbc : b ≠ c) : Function.Injective (escape b c) :=
  Function.LeftInverse.injective (unescape_escape hbc)

/-- The three ways of reading a text on. -/
theorem unescape_cases (s : List α) :
    s = [] ∨ (∃ t, s = b :: c :: t) ∨ ∃ x t, s = x :: t ∧ unescape b c s = x :: unescape b c t := by
  match s with
  | [] => exact .inl rfl
  | x :: t =>
    right
    by_cases hx : x = b
    · subst hx
      by_cases ht : t.head? = some c
      · obtain ⟨t', rfl⟩ := List.head?_eq_some_iff.mp ht
        exact .inl ⟨t', rfl⟩
      · exact .inr ⟨x, t, rfl, unescape_cons_of_head_ne x ht⟩
    · exact .inr ⟨x, t, rfl, unescape_cons_ne hx t⟩

/-- In an escaped text every `c` stands behind a `b`. -/
theorem getLast?_of_escape_eq (hbc : b ≠ c) {s l r : List α} (h : escape b c s = l ++ c :: r) :
    l.getLast? = some b := by
  induction s generalizing l with
  | nil => simp at h
  | cons x s ih =>
      by_cases hx : x = c
      · subst hx
        rw [escape_cons_self] at h
        match l with
        | [] => exact absurd (List.cons.inj h).1 hbc
        | [y] =>
            obtain ⟨rfl, -⟩ := List.cons.inj h
            rfl
        | y :: z :: l =>
            have ih := ih (List.cons.inj (List.cons.inj h).2).2
            rw [List.getLast?_cons, List.getLast?_cons, ih]
            rfl
      · rw [escape_cons_ne hx] at h
        match l with
        | [] => exact absurd (List.cons.inj h).1 hx
        | y :: l =>
            rw [List.getLast?_cons, ih (List.cons.inj h).2]
            rfl

/-- Where every `c` stands behind a `b`, a text is got back when it is unescaped and escaped again. -/
theorem escape_unescape (hbc : b ≠ c) {s : List α}
    (h : ∀ l r, s = l ++ c :: r → l.getLast? = some b) : escape b c (unescape b c s) = s := by
  induction hn : s.length using Nat.strongRecOn generalizing s with
  | _ n ih =>
      -- what is read on is behind one character or two, of which the last is no `b` to be used up
      have htail : ∀ y t, (∃ l, s = l ++ y :: t) → y = c ∨ t.head? ≠ some c →
          escape b c (unescape b c t) = t := by
        rintro y t ⟨l₀, rfl⟩ hy
        refine ih t.length ?_ (fun l r ht => ?_) rfl
        · simp only [List.length_append, List.length_cons] at hn
          omega
        · subst ht
          have := h (l₀ ++ y :: l) r (by simp)
          rw [List.getLast?_append, List.getLast?_cons] at this
          cases hl : l.getLast? with
          | some z => simpa [hl] using this
          | none =>
              obtain rfl : l = [] := List.getLast?_eq_none_iff.mp hl
              have hyb : y = b := by simpa using this
              rcases hy with rfl | hy
              · exact absurd hyb.symm hbc
              · simp at hy
      rcases unescape_cases (b := b) (c := c) s with rfl | ⟨t, rfl⟩ | ⟨x, t, rfl, hs⟩
      · simp
      · rw [unescape_pair, escape_cons_self, htail c t ⟨[b], rfl⟩ (.inl rfl)]
      · have hx : x ≠ c := fun hx => by simpa using h [] t (by rw [hx]; rfl)
        have ht : t.head? ≠ some c := by
          intro ht
          obtain ⟨t, rfl⟩ := List.head?_eq_some_iff.mp ht
          obtain rfl : x = b := by simpa using h [x] t rfl
          rw [unescape_pair] at hs
          exact hbc (List.cons.inj hs).1.symm
        rw [hs, escape_cons_ne hx, htail x t ⟨[], rfl⟩ (.inr ht)]

/-- Unescaping adds no character. -/
theorem unescape_subset (s : List α) : unescape b c s ⊆ s := by
  induction hn : s.length using Nat.strongRecOn generalizing s with
  | _ n ih =>
      rcases unescape_cases (b := b) (c := c) s with rfl | ⟨t, rfl⟩ | ⟨x, t, rfl, hs⟩
      · simp
      · rw [unescape_pair]
        have ht := ih t.length (by simp at hn; omega) t rfl
        exact List.Subset.trans (List.cons_subset_cons c ht) (List.subset_cons_self b _)
      · rw [hs]
        exact List.cons_subset_cons x (ih t.length (by simp at hn; omega) t rfl)

/-- A text ends in the character it ends in when it is unescaped. -/
theorem getLast?_unescape (s : List α) : (unescape b c s).getLast? = s.getLast? := by
  induction hn : s.length using Nat.strongRecOn generalizing s with
  | _ n ih =>
      rcases unescape_cases (b := b) (c := c) s with rfl | ⟨t, rfl⟩ | ⟨x, t, rfl, hs⟩
      · simp
      · rw [unescape_pair, List.getLast?_cons, ih t.length (by simp at hn; omega) t rfl,
          List.getLast?_cons, List.getLast?_cons]
        simp
      · rw [hs, List.getLast?_cons, ih t.length (by simp at hn; omega) t rfl, List.getLast?_cons]

/-- Where a text starts what escaping makes of it once it is unescaped, all its spaces were escaped
already; characters may be identified, as long as `b` and `c` are not. -/
theorem escape_unescape_of_prefix {β : Type*} {f : α → β} (hf : f b ≠ f c) {s : List α}
    {X Y : List β} (h : s.map f ++ X <+: (escape b c (unescape b c s)).map f ++ Y) :
    escape b c (unescape b c s) = s := by
  induction hn : s.length using Nat.strongRecOn generalizing s with
  | _ n ih =>
      rcases unescape_cases (b := b) (c := c) s with rfl | ⟨t, rfl⟩ | ⟨x, t, rfl, hs⟩
      · simp
      · rw [unescape_pair, escape_cons_self] at h ⊢
        rw [ih t.length (by simp at hn; omega) (by simpa using h) rfl]
      · rw [hs] at h ⊢
        by_cases hx : x = c
        · -- a `c` without a `b` before it gets one, and the two texts part there
          subst hx
          rw [escape_cons_self] at h
          exact absurd (List.cons_prefix_cons.mp h).1.symm hf
        · rw [escape_cons_ne hx] at h ⊢
          rw [ih t.length (by simp at hn; omega) (by simpa using h) rfl]

end TudorDo.Lib.Str
