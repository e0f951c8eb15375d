import TudorDo.Do

/-!
# Typing along a suggested path

The rows suggested for the directory `p` are escaped paths, `esc (p ++ "/" ++ n)`. What has been
typed while following one is `esc p ++ "/" ++ q`, where `q` starts `esc n`. `completes_iff` says
when the row is still offered there: with more than one space in the text the current word is not
the whole path any more, and the last component is never unescaped.
-/

namespace TudorDo.Do

open Lib Lib.Ascii Glib

/-! ## The current word of an escaped path -/

/-- With one space at most the whole path is the word. -/
theorem currentWord_escape_of_count_le {P : Bytes} (h : P.count space ≤ 1) :
    currentWord (Str.escape backslash space P) = .ok (Str.escape backslash space P) := by
  apply currentWord_of_none
  by_cases hP : space ∈ P
  · obtain ⟨l, r, rfl, hr⟩ := Str.eq_append_cons_of_mem_last hP
    have hl : space ∉ l := by
      rw [List.count_append, List.count_cons_self] at h
      exact List.count_eq_zero.mp (by omega)
    rw [Str.escape_append, Str.escape_cons_self, Str.escape_of_not_mem hl, Str.escape_of_not_mem hr,
      findLastSpacePos_escaped hr, Str.findLastOf_eq_none.mpr hl]
    rfl
  · exact findLastSpacePos_of_not_mem (by rwa [Str.escape_of_not_mem hP])

/-- With two spaces or more the word starts behind the last but one, which is escaped too. -/
theorem currentWord_escape_of_two_le {P : Bytes} (h : 2 ≤ P.count space)
    (hlen : (Str.escape backslash space P).length < 2147483648) :
    ∃ l W, P = l ++ space :: W ∧
      currentWord (Str.escape backslash space P) = .ok (Str.escape backslash space W) := by
  have hP : space ∈ P := List.count_pos_iff.mp (Nat.lt_of_lt_of_le Nat.two_pos h)
  obtain ⟨l', r, rfl, hr⟩ := Str.eq_append_cons_of_mem_last hP
  have hl' : space ∈ l' := by
    rw [List.count_append, List.count_cons_self, List.count_eq_zero.mpr hr] at h
    exact List.count_pos_iff.mp (by omega)
  obtain ⟨l, r', rfl, hr'⟩ := Str.eq_append_cons_of_mem_last hl'
  refine ⟨l, r' ++ space :: r, by simp, ?_⟩
  -- the last space is passed over, the one before it cuts
  have htext : Str.escape backslash space (l ++ space :: r' ++ space :: r) =
      (Str.escape backslash space l ++ [backslash]) ++ space ::
        Str.escape backslash space (r' ++ space :: r) := by
    simp [Str.escape_cons_self]
  have hcut : Str.escape backslash space (l ++ space :: r' ++ space :: r) =
      (Str.escape backslash space l ++ [backslash] ++ space :: r') ++ backslash :: space :: r := by
    simp [Str.escape_cons_self, Str.escape_of_not_mem hr, Str.escape_of_not_mem hr']
  rw [htext]
  apply currentWord_append_cons
  rw [← htext, hcut, findLastSpacePos_escaped hr, Str.findLastOf_append_cons hr', toInt_of_lt]
  simp only [hcut, List.length_append, List.length_cons, List.length_nil] at hlen ⊢
  omega

/-! ## The directory typed -/

/-- The directory found in a text typed along an escaped path is the path itself. -/
theorem dirName_escape {p : Bytes} (hne : p ≠ []) (hlast : p.getLast? ≠ some slash) {q : Bytes}
    (hq : slash ∉ q) :
    unescapeSpaces (pathGetDirname (Str.escape backslash space p ++ slash :: q)) = p := by
  have hdrop : dropSlashes (Str.escape backslash space p) = Str.escape backslash space p :=
    dropSlashes_of_getLast? (by rwa [Str.getLast?_escape])
  rw [pathGetDirname_append _ hq, hdrop, if_neg (escape_ne_nil hne), unescapeSpaces_eq,
    Str.unescape_escape backslash_ne_space]

/-- Cut off behind a space of the path, it is another one. -/
theorem dirName_ne {p l W m : Bytes} (hlast : p.getLast? ≠ some slash) (hm : slash ∉ m)
    (hcut : p ++ slash :: m = l ++ space :: W) (hW : slash ∈ W) :
    unescapeSpaces (pathGetDirname (Str.escape backslash space W)) ≠ p := by
  obtain ⟨W', rfl, rfl⟩ : ∃ W', p = l ++ space :: W' ∧ W = W' ++ slash :: m := by
    rcases List.append_eq_append_iff.mp hcut with ⟨bs, rfl, h⟩ | ⟨as, rfl, h⟩
    · cases bs with
      | nil => exact absurd (List.cons.inj h).1 slash_ne_space
      | cons x bs =>
          obtain ⟨-, rfl⟩ : slash = x ∧ m = bs ++ space :: W := by simpa using h
          exact absurd (by simp [hW]) hm
    · cases as with
      | nil => exact absurd (List.cons.inj h).1.symm slash_ne_space
      | cons x as =>
          obtain ⟨rfl, rfl⟩ : space = x ∧ W = as ++ slash :: m := by simpa using h
          exact ⟨as, rfl, rfl⟩
  have hm' : slash ∉ Str.escape backslash space m := fun h => hm (slash_mem_escape.mp h)
  rw [Str.escape_append, escape_slash]
  by_cases hW' : W' = []
  · subst hW'
    rw [pathGetDirname_append _ hm', Str.escape_nil, if_pos (by decide), unescapeSpaces_eq,
      Str.unescape_cons_ne slash_ne_backslash, Str.unescape_nil]
    intro h
    have hlast := congrArg List.getLast? h
    rw [List.getLast?_append, List.getLast?_singleton, List.getLast?_singleton] at hlast
    exact absurd (Option.some.inj hlast) slash_ne_space
  · rw [dirName_escape hW' _ hm']
    · intro h
      have := congrArg List.length h
      simp only [List.length_append, List.length_cons] at this
      omega
    · simpa [List.getLast?_append, List.getLast?_cons, List.getLast?_eq_some_getLast hW'] using hlast

/-! ## The row along its own text -/

/-- `q` ends between the backslash that escapes a space of `n` and the space. -/
def SplitsEscape (n q : Bytes) : Prop :=
  ∃ m, m ++ [space] <+: n ∧ q = escapeSpaces m ++ [backslash]

section Completes

variable {fs : FileSystem} {p n : Bytes} {names : List Bytes}

/-- Among the entries of the directory, the row is offered for as long as no space is typed in the
last component. -/
theorem mem_entryRows_iff (hlast : p.getLast? ≠ some slash) (hne : p ≠ []) (hn : n ∈ names)
    {l m : Bytes} (hm : m <+: n) (hslash : slash ∉ m) :
    (⟨p, escapeSpaces (p ++ slash :: n)⟩ : Row) ∈
        entryRows (l ++ slash :: Str.escape backslash space m) p names ↔
      space ∉ m := by
  have hslash' : slash ∉ Str.escape backslash space m := fun h => hslash (slash_mem_escape.mp h)
  unfold entryRows
  simp only [List.mem_map, List.mem_filter, matchesEntry_iff hslash', Row.mk.injEq, true_and,
    buildFilename_of_getLast? hlast hne, escapeSpaces_eq]
  constructor
  · rintro ⟨n', ⟨-, hstart⟩, hrow⟩
    have hrow := Str.escape_injective backslash_ne_space hrow
    obtain rfl : n' = n := by simpa using hrow
    have hesc : Str.escape backslash space m <+: Str.escape backslash space n' := by
      obtain ⟨t, rfl⟩ := hm
      simp
    have hbs : id backslash ≠ id space := backslash_ne_space
    have := Str.not_mem_of_prefix_escape hbs hstart (by rwa [List.map_id, List.map_id])
    rwa [Str.mem_escape_self] at this
  · intro hspace
    exact ⟨n, ⟨hn, by rwa [Str.escape_of_not_mem hspace]⟩, rfl⟩

variable {env : List Bytes} {s : Do}

/-- Where the whole path is the word, the entries of the directory come first. -/
theorem liststore_of_whole_path (habs : p.head? = some slash) (hlast : p.getLast? ≠ some slash)
    (hexists : fs.testExists p = true) (hdir : fs.openDir p = some names) {q : Bytes}
    (hq : slash ∉ q) (htext : s.entry.text = Str.escape backslash space p ++ slash :: q)
    (hword : currentWord s.entry.text = .ok s.entry.text) :
    (onEntryChangedEvent fs env s).map liststore = .ok (entryRows s.entry.text p names ++
      (historyRows s.history s.entry.text ++ commandRows s.path s.entry.text)) := by
  match p, habs with
  | c :: p, habs =>
    obtain rfl : c = slash := by simpa using habs
    match p, hlast with
    | [], hlast => exact absurd rfl hlast
    | c :: p, hlast =>
      have hesc : Str.escape backslash space (slash :: c :: p) =
          slash :: Str.escape backslash space (c :: p) := escape_slash _
      have hpos : 0 < (Str.escape backslash space (c :: p)).length :=
        List.length_pos_iff.mpr (escape_ne_nil (by simp))
      have hlen : 2 < s.entry.text.length := by
        rw [htext, hesc]
        simp only [List.length_append, List.length_cons]
        omega
      have hslash : s.entry.text.take 1 = [slash] := by
        rw [htext, hesc]
        rfl
      have hname : unescapeSpaces (pathGetDirname s.entry.text) = slash :: c :: p := by
        rw [htext, dirName_escape (by simp) hlast hq]
      rw [onEntryChangedEvent_of_word hword hlen, wordRows, if_pos hslash, hname, if_pos hexists,
        hdir]

/-- A path is not the name of a command. -/
theorem not_listed {path : PathMap} (hnames : ∀ it ∈ path.listing p, slash ∉ it) :
    escapeSpaces (p ++ slash :: n) ∉ path.listing p := by
  intro h
  apply hnames _ h
  rw [escapeSpaces_eq, slash_mem_escape]
  simp

/-- Where the word starts behind a space of the path, the row is not offered. -/
theorem not_offered {l W m : Bytes} (hlast : p.getLast? ≠ some slash) (hne : p ≠ [])
    (hm : slash ∉ m) (hcut : p ++ slash :: m = l ++ space :: W)
    (hword : currentWord s.entry.text = .ok (Str.escape backslash space W))
    (hnames : ∀ it ∈ s.path.listing p, slash ∉ it) {s' : Do}
    (hs' : onEntryChangedEvent fs env s = .ok s') :
    ⟨p, escapeSpaces (p ++ slash :: n)⟩ ∉ s'.liststore := by
  intro hmem
  by_cases hlen : 2 < (Str.escape backslash space W).length
  · have hrows : (onEntryChangedEvent fs env s).map liststore =
        wordRows fs env s.history s.path (Str.escape backslash space W) :=
      onEntryChangedEvent_of_word hword hlen
    rw [hs', Except.map] at hrows
    rcases of_mem_wordRows hrows.symm hmem with ⟨names, hslash, -, -, hrow⟩ | ⟨hdollar, hrow⟩ | hrow | hrow
    · obtain ⟨n', -, hrow⟩ := List.mem_map.mp hrow
      have hW : slash ∈ W := by
        rw [← slash_mem_escape]
        exact List.mem_of_mem_take (hslash ▸ List.mem_singleton_self slash)
      exact dirName_ne hlast hm hcut hW (congrArg Row.dir hrow)
    · exact hne (of_mem_envRows hdollar hrow).1
    · exact hne (of_mem_historyRows hrow).1
    · exact not_listed hnames (of_mem_commandRows hrow).1
  · rw [onEntryChangedEvent_of_short _ hs'] at hmem
    · simp at hmem
    · intro text htext
      rw [hword] at htext
      cases htext
      omega

/-- **Following a suggestion.** Let `p` be a directory that can be read, and `n` a name in it. With
`esc p ++ "/" ++ q` typed, where `q` starts `esc n`, the row of `n` is offered if there is no space
in `q` and one at most in `p`; and, in a text whose positions are `int`s and with names listed that
have no slash, only then. -/
theorem completes_iff {q : Bytes} (habs : p.head? = some slash) (hlast : p.getLast? ≠ some slash)
    (hexists : fs.testExists p = true) (hdir : fs.openDir p = some names) (hn : n ∈ names)
    (hq : q <+: escapeSpaces n) (hsplit : ¬ SplitsEscape n q)
    (htext : s.entry.text = escapeSpaces p ++ slash :: q) :
    (space ∉ q ∧ p.count space ≤ 1 →
      ∃ s', onEntryChangedEvent fs env s = .ok s' ∧
        ⟨p, escapeSpaces (p ++ slash :: n)⟩ ∈ s'.liststore) ∧
    (s.entry.text.length < 2147483648 → (∀ d, ∀ it ∈ s.path.listing d, slash ∉ it) →
      (∃ s', onEntryChangedEvent fs env s = .ok s' ∧
        ⟨p, escapeSpaces (p ++ slash :: n)⟩ ∈ s'.liststore) →
      space ∉ q ∧ p.count space ≤ 1) := by
  have hne : p ≠ [] := by
    rintro rfl
    simp at habs
  rw [escapeSpaces_eq] at hq htext
  obtain ⟨m, hm, rfl⟩ : ∃ m, m <+: n ∧ q = Str.escape backslash space m := by
    rcases Str.prefix_escape hq with h | ⟨m, hm, rfl⟩
    · exact h
    · exact absurd ⟨m, hm, by rw [escapeSpaces_eq]⟩ hsplit
  have hmslash : slash ∉ m := fun h => (fs.openDir_names p names hdir n hn).2 (hm.subset h)
  have hqslash : slash ∉ Str.escape backslash space m :=
    fun h => hmslash (slash_mem_escape.mp h)
  have htext' : s.entry.text = Str.escape backslash space (p ++ slash :: m) := by
    rw [htext, Str.escape_append, escape_slash]
  have hcount : (p ++ slash :: m).count space = p.count space + m.count space := by
    rw [List.count_append, List.count_cons_of_ne slash_ne_space]
  have hentry : ⟨p, escapeSpaces (p ++ slash :: n)⟩ ∈ entryRows s.entry.text p names ↔ space ∉ m := by
    rw [htext]
    exact mem_entryRows_iff hlast hne hn hm hmslash
  -- with one space at most, the whole text is the word
  have hwhole : (p ++ slash :: m).count space ≤ 1 →
      (onEntryChangedEvent fs env s).map liststore = .ok (entryRows s.entry.text p names ++
        (historyRows s.history s.entry.text ++ commandRows s.path s.entry.text)) := by
    intro hle
    apply liststore_of_whole_path habs hlast hexists hdir hqslash htext
    rw [htext', currentWord_escape_of_count_le hle]
  rw [Str.mem_escape_self]
  constructor
  · rintro ⟨hspace, hle⟩
    rw [exists_row_iff (hwhole (by rw [hcount, List.count_eq_zero.mpr hspace]; exact hle))]
    exact List.mem_append_left _ (hentry.mpr hspace)
  · intro hlen hnames hoffered
    by_cases hle : (p ++ slash :: m).count space ≤ 1
    · rw [exists_row_iff (hwhole hle)] at hoffered
      have hspace : space ∉ m := by
        rcases List.mem_append.mp hoffered with h | h
        · exact hentry.mp h
        rcases List.mem_append.mp h with h | h
        · exact absurd (of_mem_historyRows h).1 hne
        · exact absurd (of_mem_commandRows h).1 (not_listed (hnames p))
      exact ⟨hspace, by omega⟩
    · obtain ⟨l, W, hcut, hword⟩ := currentWord_escape_of_two_le (by omega) (htext' ▸ hlen)
      obtain ⟨s', hs', hmem⟩ := hoffered
      exact absurd hmem (not_offered hlast hne hmslash hcut (htext' ▸ hword) (hnames p) hs')

end Completes

/-- A file system with the file `b c` in `/my dir`. -/
def oneFile : FileSystem where
  fileType path := if path = bytes "/my dir" then some .directory else none
  accessX _ := false
  openDir path := if path = bytes "/my dir" then some [bytes "b c"] else none
  openDir_names := by
    intro path names h n hn
    simp only [Option.ite_none_right_eq_some, Option.some.injEq] at h
    rw [← h.2, List.mem_singleton] at hn
    subst hn
    decide

theorem not_splitsEscape {n q : Bytes} (h : q.getLast? ≠ some backslash) : ¬ SplitsEscape n q := by
  rintro ⟨m, -, rfl⟩
  simp at h

/-- `completes_iff` with `b` typed: `b c` is offered. -/
theorem completes_iff_short :
    ∃ s', onEntryChangedEvent oneFile [] (typing (bytes "/my\\ dir/b") []) = .ok s' ∧
      ⟨bytes "/my dir", escapeSpaces (bytes "/my dir" ++ slash :: bytes "b c")⟩ ∈ s'.liststore :=
  (completes_iff (n := bytes "b c") (q := bytes "b") (by decide) (by decide) (by decide)
    (show oneFile.openDir (bytes "/my dir") = some [bytes "b c"] by decide) (by decide)
    (by decide +kernel) (not_splitsEscape (by decide)) (by decide +kernel)).1 (by decide)

/-- With the row's whole text typed, `b c` is offered no more. -/
theorem not_completed :
    bytes "b\\ c" <+: escapeSpaces (bytes "b c") ∧ ¬ SplitsEscape (bytes "b c") (bytes "b\\ c") ∧
    bytes "/my\\ dir/b\\ c" = escapeSpaces (bytes "/my dir" ++ slash :: bytes "b c") ∧
    ∀ s', onEntryChangedEvent oneFile [] (typing (bytes "/my\\ dir/b\\ c") []) = .ok s' →
      s'.liststore = [] := by
  refine ⟨by decide +kernel, not_splitsEscape (by decide), by decide +kernel, ?_⟩
  intro s' hs'
  have hrows : (onEntryChangedEvent oneFile [] (typing (bytes "/my\\ dir/b\\ c") [])).map liststore =
      .ok [] := by decide +kernel
  rw [hs'] at hrows
  exact Except.ok.inj hrows

end TudorDo.Do
