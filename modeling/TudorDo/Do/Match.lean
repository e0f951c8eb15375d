import TudorDo.Do

/-!
# The rows listed and the rows accepted

`on_entry_changed_event` lists rows and `on_completion_match` is asked, for each of them, whether it
completes what was typed. For ASCII texts the second function accepts a row exactly when the word
typed starts it, letters compared without case (`onCompletionMatch_iff`); where it does not accept a
row it comes to its end without an answer (`match_decides_iff`). Rows of the history, the
environment and the listings start with the word by the way they are selected; a row of the typed
directory is put together anew, and starts with the word only where the word is written the way
rows are (`PlainPath`). `rows_accepted_iff` is the result for all rows.
-/

namespace TudorDo

open Lib Lib.Ascii Glib

/-! ## ASCII texts -/

namespace Ustring

theorem length_of_ascii {s : Bytes} (h : IsAscii s) : length s = s.length := by
  rw [length, Utf8.chars_of_ascii h, List.length_map]

theorem substr_of_ascii {s : Bytes} (h : IsAscii s) (n : Nat) : substr s 0 n = some (s.take n) := by
  rw [substr, Utf8.chars_of_ascii h, Str.substr, if_pos (Nat.zero_le _), List.drop_zero,
    ← List.map_take, Option.map_some, ← List.flatMap_def, List.flatMap_singleton']

theorem substrInt_of_ascii {s : Bytes} (h : IsAscii s) (pos : Int) :
    substrInt s pos = TudorDo.substrInt s pos := by
  unfold substrInt TudorDo.substrInt Str.substrFrom
  rw [Utf8.chars_of_ascii h, List.length_map]
  cases fromInt pos with
  | none => rfl
  | some i =>
      simp only [Option.bind_some]
      split_ifs
      · rw [Option.map_some, ← List.map_drop, ← List.flatMap_def, List.flatMap_singleton']
      · rfl

end Ustring

theorem isAscii_map_toLower {s : Bytes} (h : IsAscii s) : IsAscii (s.map toLower) := by
  intro b hb
  obtain ⟨c, hc, rfl⟩ := List.mem_map.mp hb
  exact toLower_lt (h c hc)

theorem toLower_eq_space (b : UInt8) : toLower b = space ↔ b = space :=
  toLower_eq_iff (.inl (by decide))

theorem toLower_eq_slash (b : UInt8) : toLower b = slash ↔ b = slash :=
  toLower_eq_iff (.inl (by decide))

theorem toLower_eq_backslash (b : UInt8) : toLower b = backslash ↔ b = backslash :=
  toLower_eq_iff (.inr (.inl (by decide)))

/-- The space is found where it was. -/
theorem findLastSpacePos_map_toLower (s : Bytes) :
    findLastSpacePos (s.map toLower) = findLastSpacePos s := by
  have hcut : cutSpace (s.map toLower) = cutSpace s := by
    have hback : ∀ pos : Nat, (s.map toLower)[pos]? = some backslash ↔ s[pos]? = some backslash := by
      intro pos
      simp only [List.getElem?_map, Option.map_eq_some_iff, toLower_eq_backslash, exists_eq_right]
    unfold cutSpace
    simp only [Str.findLastOf_map toLower_eq_space, hback, ← List.map_take]
  rw [findLastSpacePos_eq, findLastSpacePos_eq, hcut, Str.findLastOf_map toLower_eq_space]

theorem substrInt_map (f : UInt8 → UInt8) (s : Bytes) (pos : Int) :
    substrInt (s.map f) pos = (substrInt s pos).map (List.map f) := by
  unfold substrInt Str.substrFrom
  cases fromInt pos with
  | none => rfl
  | some i =>
      simp only [Option.bind_some, List.length_map]
      split_ifs
      · rw [← List.map_drop]
        rfl
      · rfl

namespace Do

/-! ## One row -/

/-- For an ASCII key the string compared with a row is the current word. -/
theorem matchString_of_ascii {key : Bytes} (h : IsAscii key) : matchString key = currentWord key := by
  unfold matchString currentWord
  simp only [Ustring.substrInt_of_ascii h]

/-- The current word of a text in lower case. -/
theorem currentWord_map_toLower (text : Bytes) :
    currentWord (text.map toLower) = (currentWord text).map (List.map toLower) := by
  unfold currentWord
  rw [findLastSpacePos_map_toLower]
  cases findLastSpacePos text with
  | error e => rfl
  | ok pos =>
      simp only [bind, Except.bind]
      split_ifs
      · rw [substrInt_map]
      · rfl

/-- What becomes of one row: it is accepted where the current word has more than two characters and
starts the row in lower case, and elsewhere the function comes to its end. -/
theorem onCompletionMatch_of_ascii {lowercase : Bytes → Bytes}
    (hlower : ∀ s, IsAscii s → lowercase s = s.map toLower) {key w : Bytes} (hkey : IsAscii key)
    (hword : currentWord key = .ok w) {row : Row} (hrow : IsAscii row.file) :
    onCompletionMatch lowercase key (some row) =
      .ok (if 2 < w.length ∧ w <+: row.file.map toLower then some true else none) := by
  have hw : IsAscii w := hkey.of_subset (currentWord_suffix hword).subset
  have hguard : w.length ≠ 0 ∧ w.length > 2 ↔ 2 < w.length := by omega
  simp only [onCompletionMatch, matchString_of_ascii hkey, hword, hlower _ hrow,
    Ustring.length_of_ascii hw, Ustring.substr_of_ascii (isAscii_map_toLower hrow), checked_some,
    bind, Except.bind, pure, Except.pure, hguard, List.prefix_iff_eq_take, @eq_comm _ w]
  by_cases hlong : 2 < w.length
  · simp only [if_pos hlong, and_iff_right hlong]
    split_ifs <;> rfl
  · simp only [hlong, false_and, if_false]

/-- A row is accepted exactly when the word starts it, letters compared without case. -/
theorem onCompletionMatch_iff {lowercase : Bytes → Bytes}
    (hlower : ∀ s, IsAscii s → lowercase s = s.map toLower) {text w : Bytes}
    (hascii : IsAscii text) (hword : currentWord text = .ok w) (hlen : 2 < w.length) {row : Row}
    (hrow : IsAscii row.file) :
    onCompletionMatch lowercase (text.map toLower) (some row) = .ok (some true) ↔
      w.map toLower <+: row.file.map toLower := by
  have hword' : currentWord (text.map toLower) = .ok (w.map toLower) := by
    rw [currentWord_map_toLower, hword]
    rfl
  rw [onCompletionMatch_of_ascii hlower (isAscii_map_toLower hascii) hword' hrow, List.length_map]
  split_ifs with h
  · exact iff_of_true rfl h.2
  · exact iff_of_false (by simp) fun hstart => h ⟨hlen, hstart⟩

/-- **The match function.** For an ASCII key and row it answers whether the current word, of more
than two characters, starts the row in lower case, where the answer is yes; where it is no, the
function answers nothing. -/
theorem match_decides_iff {lowercase : Bytes → Bytes}
    (hlower : ∀ s, IsAscii s → lowercase s = s.map toLower) {key w : Bytes} (hkey : IsAscii key)
    (hword : currentWord key = .ok w) {row : Row} (hrow : IsAscii row.file) :
    onCompletionMatch lowercase key (some row) =
        .ok (some (decide (2 < w.length ∧ w <+: row.file.map toLower))) ↔
      2 < w.length ∧ w <+: row.file.map toLower := by
  rw [onCompletionMatch_of_ascii hlower hkey hword hrow]
  split_ifs with h
  · exact iff_of_true (by rw [decide_eq_true h]) h
  · exact iff_of_false (by simp) h

/-- `match_decides_iff` for the key `ls /us` and the row `/usr`. -/
theorem match_decides_iff_usr :
    onCompletionMatch (List.map toLower) (bytes "ls /us") (some ⟨bytes "/", bytes "/usr"⟩) =
      .ok (some (decide (2 < (bytes "/us").length ∧
        bytes "/us" <+: (bytes "/usr").map toLower))) :=
  (match_decides_iff (fun _ _ => rfl) (by decide) (by decide) (by decide)).mpr (by decide)

/-- A key that is too short, and one that does not start the row: the function comes to its end. -/
theorem match_without_answer :
    onCompletionMatch (List.map toLower) (bytes "ls") (some ⟨[], bytes "ls"⟩) = .ok none ∧
      onCompletionMatch (List.map toLower) (bytes "mkdir") (some ⟨[], bytes "ls"⟩) = .ok none := by
  decide +kernel

/-! ## A row of the typed directory -/

/-- A path typed the way rows are written: one slash before its last component, every space before
that slash escaped, and no space behind it. -/
def PlainPath (w : Bytes) : Prop :=
  ∃ D B, w = D ++ slash :: B ∧ slash ∉ B ∧ D.getLast? ≠ some slash ∧
    escapeSpaces (unescapeSpaces D) = D ∧ space ∉ B

theorem plainPath_iff {l r : Bytes} (hr : slash ∉ r) :
    PlainPath (l ++ slash :: r) ↔
      l.getLast? ≠ some slash ∧ escapeSpaces (unescapeSpaces l) = l ∧ space ∉ r := by
  constructor
  · rintro ⟨D, B, hcut, hB, h⟩
    obtain ⟨rfl, rfl⟩ := Str.append_cons_inj hr hB hcut
    exact h
  · intro h
    exact ⟨l, r, rfl, hr, h⟩

/-- The name a row is made from, behind the directory typed with all its spaces escaped. -/
theorem escape_buildFilename (l : Bytes) {r : Bytes} (hr : slash ∉ r) (n : Bytes) :
    escapeSpaces (buildFilename (unescapeSpaces (pathGetDirname (l ++ slash :: r))) n) =
      escapeSpaces (unescapeSpaces (dropSlashes l)) ++ slash :: Str.escape backslash space n := by
  have hbuild : buildFilename (unescapeSpaces (pathGetDirname (l ++ slash :: r))) n =
      unescapeSpaces (dropSlashes l) ++ slash :: n := by
    rw [pathGetDirname_append l hr]
    split_ifs with hcore
    · rw [hcore, unescapeSpaces_eq, unescapeSpaces_eq, Str.unescape_cons_ne slash_ne_backslash,
        Str.unescape_nil]
      rfl
    · have hlast : (unescapeSpaces (dropSlashes l)).getLast? = (dropSlashes l).getLast? := by
        rw [unescapeSpaces_eq, Str.getLast?_unescape]
      refine buildFilename_of_getLast? (hlast ▸ getLast?_dropSlashes l) (fun h => hcore ?_) n
      rw [h] at hlast
      exact List.getLast?_eq_none_iff.mp hlast.symm
  rw [hbuild, escapeSpaces_eq, Str.escape_append, escape_slash, escapeSpaces_eq]

/-- The path typed starts a row of its directory, letters compared without case, exactly when it is
written the way the row is. -/
theorem entry_starts_iff {l r n : Bytes} (hr : slash ∉ r) (hn : slash ∉ n) (hrn : r <+: n) :
    (l ++ slash :: r).map toLower <+:
        (escapeSpaces (buildFilename (unescapeSpaces (pathGetDirname (l ++ slash :: r))) n)).map
          toLower ↔
      PlainPath (l ++ slash :: r) := by
  have hbs : toLower backslash ≠ toLower space := by decide
  rw [escape_buildFilename l hr, plainPath_iff hr]
  constructor
  · intro h
    have hcore := getLast?_dropSlashes l
    have hl : l = dropSlashes l ++ l.rtakeWhile (· = slash) :=
      (List.rdropWhile_append_rtakeWhile).symm
    -- the row has the directory without the slashes it ends with, unescaped and escaped again
    generalize dropSlashes l = core at h hcore hl
    generalize l.rtakeWhile (· = slash) = slashes at hl
    subst hl
    have hclean : escapeSpaces (unescapeSpaces core) = core := by
      rw [escapeSpaces_eq, unescapeSpaces_eq] at h ⊢
      refine Str.escape_unescape_of_prefix hbs (X := (slashes ++ slash :: r).map toLower)
        (Y := (slash :: Str.escape backslash space n).map toLower) ?_
      simpa using h
    rw [hclean, List.append_assoc] at h
    simp only [List.map_append, List.prefix_append_right_inj, List.map_cons] at h
    cases slashes with
    | nil =>
        rw [List.map_nil, List.nil_append, List.prefix_cons_inj] at h
        rw [List.append_nil]
        exact ⟨hcore, hclean, Str.not_mem_of_prefix_escape hbs hrn h⟩
    | cons x slashes =>
        -- a second slash would have to be in the escaped name
        rw [List.map_cons, List.cons_append] at h
        have hmem : toLower slash ∈ slashes.map toLower ++ toLower slash :: r.map toLower := by simp
        obtain ⟨b, hb, heq⟩ := List.mem_map.mp ((List.cons_prefix_cons.mp h).2.subset hmem)
        rw [(toLower_eq_slash slash).mpr rfl, toLower_eq_slash] at heq
        exact absurd (slash_mem_escape.mp (heq ▸ hb)) hn
  · rintro ⟨hlast, hclean, hspace⟩
    rw [dropSlashes_of_getLast? hlast, hclean]
    refine List.IsPrefix.map _ ((List.prefix_append_right_inj l).mpr ?_)
    exact (List.prefix_cons_inj slash).mpr (Str.prefix_escape_of_not_mem hrn hspace)

/-! ## All rows -/

section Rows

variable {fs : FileSystem} {env : List Bytes} {s s' : Do}

/-- The typed directory has an entry to be listed. -/
def OffersEntry (fs : FileSystem) (w : Bytes) : Prop :=
  fs.testExists (unescapeSpaces (pathGetDirname w)) = true ∧
    ∃ names, fs.openDir (unescapeSpaces (pathGetDirname w)) = some names ∧
      ∃ n ∈ names, matchesEntry w n = true

theorem isAscii_escapeSpaces {x : Bytes} (h : IsAscii x) : IsAscii (escapeSpaces x) := by
  intro b hb
  rw [escapeSpaces_eq] at hb
  by_cases hbs : b = backslash
  · rw [hbs]
    decide
  · exact h b ((Str.mem_escape_of_ne hbs).mp hb)

theorem isAscii_unescapeSpaces {x : Bytes} (h : IsAscii x) : IsAscii (unescapeSpaces x) := by
  intro b hb
  rw [unescapeSpaces_eq] at hb
  exact h b (Str.unescape_subset x hb)

theorem isAscii_append_cons {x y : Bytes} (hx : IsAscii x) (hy : IsAscii y) :
    IsAscii (x ++ slash :: y) := by
  intro b hb
  rcases List.mem_append.mp hb with hb | hb
  · exact hx b hb
  rcases List.mem_cons.mp hb with rfl | hb
  · decide
  · exact hy b hb

/-- A row of the typed directory is accepted exactly when the path is written the way rows are. -/
theorem entry_accepted_iff {lowercase : Bytes → Bytes}
    (hlower : ∀ x, IsAscii x → lowercase x = x.map toLower) {text w n : Bytes}
    (hascii : IsAscii text) (hword : currentWord text = .ok w) (hlen : 2 < w.length)
    (hslash : w.take 1 = [slash]) (hn : slash ∉ n) (hnascii : IsAscii n)
    (hmatch : matchesEntry w n = true) :
    onCompletionMatch lowercase (text.map toLower)
        (some ⟨unescapeSpaces (pathGetDirname w),
          escapeSpaces (buildFilename (unescapeSpaces (pathGetDirname w)) n)⟩) = .ok (some true) ↔
      PlainPath w := by
  have hw : IsAscii w := hascii.of_subset (currentWord_suffix hword).subset
  have hmem : slash ∈ w := List.mem_of_mem_take (hslash ▸ List.mem_singleton_self slash)
  obtain ⟨l, r, rfl, hr⟩ := Str.eq_append_cons_of_mem_last hmem
  have hfile : IsAscii (escapeSpaces
      (buildFilename (unescapeSpaces (pathGetDirname (l ++ slash :: r))) n)) := by
    rw [escape_buildFilename l hr, ← escapeSpaces_eq]
    have hl : IsAscii (dropSlashes l) := hw.of_subset
      (List.Subset.trans (List.rdropWhile_prefix _ _).subset (List.subset_append_left _ _))
    exact isAscii_append_cons (isAscii_escapeSpaces (isAscii_unescapeSpaces hl))
      (isAscii_escapeSpaces hnascii)
  rw [onCompletionMatch_iff hlower hascii hword hlen hfile]
  exact entry_starts_iff hr hn ((matchesEntry_iff hr).mp hmatch)

/-- **The rows listed and the rows accepted.** For an ASCII text, and files, variables, commands and
a history of ASCII strings, every row that `on_entry_changed_event` lists is accepted for the text
in lower case if and only if a path typed in a directory that has an entry to list is written the
way rows are. -/
theorem rows_accepted_iff {lowercase : Bytes → Bytes}
    (hlower : ∀ x, IsAscii x → lowercase x = x.map toLower) (htext : IsAscii s.entry.text)
    (hfs : ∀ d names, fs.openDir d = some names → ∀ n ∈ names, IsAscii n)
    (henv : ∀ v ∈ env, IsAscii v) (hhistory : ∀ h ∈ s.history, IsAscii h)
    (hpath : ∀ d, ∀ it ∈ s.path.listing d, IsAscii it)
    (hs : onEntryChangedEvent fs env s = .ok s') :
    (∀ row ∈ s'.liststore,
      onCompletionMatch lowercase (s.entry.text.map toLower) (some row) = .ok (some true)) ↔
    ∀ w, currentWord s.entry.text = .ok w → 2 < w.length → w.take 1 = [slash] →
      OffersEntry fs w → PlainPath w := by
  by_cases hshort : ∀ w, currentWord s.entry.text = .ok w → w.length ≤ 2
  · rw [onEntryChangedEvent_of_short hshort hs]
    apply iff_of_true (by simp)
    intro w hw hlen
    exact absurd hlen (Nat.not_lt.mpr (hshort w hw))
  simp only [not_forall, Nat.not_le] at hshort
  obtain ⟨w, hword, hlen⟩ := hshort
  have hrows : wordRows fs env s.history s.path w = .ok s'.liststore := by
    rw [← onEntryChangedEvent_of_word hword hlen, hs]
    rfl
  have hknown : ∀ {row : Row}, IsAscii row.file → w <+: row.file →
      onCompletionMatch lowercase (s.entry.text.map toLower) (some row) = .ok (some true) :=
    fun hfile hstart => (onCompletionMatch_iff hlower htext hword hlen hfile).mpr (hstart.map _)
  constructor
  · rintro hall w' hw' - hslash ⟨hexists, names, hdir, n, hn, hmatch⟩
    obtain rfl : w = w' := Except.ok.inj (hword.symm.trans hw')
    refine (entry_accepted_iff hlower htext hword hlen hslash (fs.openDir_names _ _ hdir n hn).2
      (hfs _ _ hdir n hn) hmatch).mp (hall _ ?_)
    simp only [wordRows, if_pos hslash, if_pos hexists, hdir, Except.ok.injEq] at hrows
    rw [← hrows]
    exact List.mem_append_left _ (List.mem_map.mpr ⟨n, List.mem_filter.mpr ⟨hn, hmatch⟩, rfl⟩)
  · intro hplain row hrow
    rcases of_mem_wordRows hrows hrow with
      ⟨names, hslash, hexists, hdir, hentry⟩ | ⟨hdollar, henv'⟩ | hhistory' | hcommand
    · obtain ⟨n, hn, rfl⟩ := List.mem_map.mp hentry
      obtain ⟨hn, hmatch⟩ := List.mem_filter.mp hn
      exact (entry_accepted_iff hlower htext hword hlen hslash (fs.openDir_names _ _ hdir n hn).2
        (hfs _ _ hdir n hn) hmatch).mpr
          (hplain w hword hlen hslash ⟨hexists, names, hdir, n, hn, hmatch⟩)
    · refine hknown ?_ (of_mem_envRows hdollar henv').2
      obtain ⟨v, hv, rfl⟩ := List.mem_map.mp henv'
      exact List.forall_mem_cons.mpr ⟨by decide, henv v (List.mem_of_mem_filter hv)⟩
    · refine hknown ?_ (of_mem_historyRows hhistory').2
      obtain ⟨h, hh, rfl⟩ := List.mem_map.mp hhistory'
      exact hhistory h (Std.ExtTreeSet.mem_toList.mp (List.mem_of_mem_filter hh))
    · have hcommand := of_mem_commandRows hcommand
      exact hknown (hpath _ _ hcommand.1) hcommand.2

end Rows

/-- A file system with the directory `/usr` in `/`. -/
def slashUsr : FileSystem where
  fileType path := if path = [slash] then some .directory else none
  accessX _ := false
  openDir path := if path = [slash] then some [bytes "usr"] else none
  openDir_names := by
    intro path names h n hn
    simp only [Option.ite_none_right_eq_some, Option.some.injEq] at h
    rw [← h.2, List.mem_singleton] at hn
    subst hn
    decide

/-- `rows_accepted_iff` with `/us` typed: `/usr` is listed and accepted. -/
theorem rows_accepted_iff_usr :
    ∃ s', onEntryChangedEvent slashUsr [] (typing (bytes "/us") []) = .ok s' ∧
      s'.liststore = [⟨bytes "/", bytes "/usr"⟩] ∧
      ∀ row ∈ s'.liststore,
        onCompletionMatch (List.map toLower) (bytes "/us") (some row) = .ok (some true) := by
  have hrows : (onEntryChangedEvent slashUsr [] (typing (bytes "/us") [])).map liststore =
      .ok [⟨bytes "/", bytes "/usr"⟩] := by decide +kernel
  obtain ⟨s', hs, hlist⟩ := of_map_liststore hrows
  refine ⟨s', hs, hlist, ?_⟩
  have hnames : ∀ d names, slashUsr.openDir d = some names → ∀ n ∈ names, IsAscii n := by
    intro d names h n hn
    simp only [slashUsr, Option.ite_none_right_eq_some, Option.some.injEq] at h
    rw [← h.2, List.mem_singleton] at hn
    subst hn
    decide
  refine (rows_accepted_iff (fun _ _ => rfl) (by decide) hnames (by decide)
    (fun h hh => absurd hh Std.ExtTreeSet.not_mem_empty) (fun d it hit => ?_) hs).mpr ?_
  · simp [typing, PathMap.listing] at hit
  · intro w hw _ _ _
    obtain rfl : bytes "/us" = w := Except.ok.inj (Eq.trans (by decide) hw)
    exact ⟨[], bytes "us", rfl, by decide, by decide, by decide +kernel, by decide⟩

/-- With the slash doubled `/usr` is still listed, but the match function comes to its end on it. -/
theorem listed_row_not_accepted :
    (onEntryChangedEvent slashUsr [] (typing (bytes "//us") [])).map liststore =
        .ok [⟨bytes "/", bytes "/usr"⟩] ∧
      onCompletionMatch (List.map toLower) (bytes "//us") (some ⟨bytes "/", bytes "/usr"⟩) =
        .ok none := by
  decide +kernel

end Do

end TudorDo
