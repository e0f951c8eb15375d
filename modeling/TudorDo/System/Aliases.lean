import TudorDo.System.Startup

/-!
# Two names for one directory

`PATH` can name a directory twice, by strings that differ, and each string is a key of `m_path` with
a listing of its own. The kernel gives both watches one descriptor, `Add` throws for the second one
and `run` drops the exception, so that all events of the directory go to the listing of one key:
`aliases_iff`.
-/

namespace TudorDo

open Lib PathMonitor

variable {lookup : Bytes → Option Inode} {dirs : List Bytes} {s : System} {ino : Inode}

theorem System.Started.unlisted_eq_nil (h : s.Started) : s.unlisted = [] := by
  unfold System.Started at h
  unfold System.unlisted
  cases hpc : s.pc <;> simp_all

theorem System.Started.unwatched_eq_nil (h : s.Started) : s.unwatched = [] := by
  unfold System.Started at h
  unfold System.unwatched
  cases hpc : s.pc <;> simp_all

/-- The events of a directory go to one listing. -/
theorem subscribed_unique {d d' : Bytes} (h : s.Subscribed d ino) (h' : s.Subscribed d' ino) :
    d = d' := by
  obtain ⟨-, w, hw, rfl⟩ := h
  obtain ⟨-, w', hw', rfl⟩ := h'
  rw [hw] at hw'
  rw [Option.some.inj hw']

/-- **Two names for one directory.** Through every interleaving of creations with the steps of the
program, none before the watches are in place, once all events are handled the keys of `m_path` that
name one directory have the same names listed, and all names of the directory among them, if and
only if no file was created in a directory that two different strings of `PATH` name. -/
theorem aliases_iff {files : Inode → Directory} {fd : Nat} {as : List Action}
    (has : ∀ a ∈ as, a.OnlyCreates)
    (hstarted : EachStep System.step (fun s a => (∃ ino op, a = .op ino op) → s.Started)
      (System.init lookup files dirs fd) as)
    {t : System} (hrun : Lib.run System.step (System.init lookup files dirs fd) as = some t)
    (ht : t.Quiescent) :
    (∀ ino, ∀ d₁ ∈ t.path, ∀ d₂ ∈ t.path, lookup d₁ = some ino → lookup d₂ = some ino →
      (∀ n, n ∈ t.path.listing d₁ ↔ n ∈ t.path.listing d₂) ∧
        ∀ n ∈ (t.files ino).names, n ∈ t.path.listing d₁) ↔
    ∀ ino op, .op ino op ∈ as → ∀ d₁ ∈ dirs, ∀ d₂ ∈ dirs, lookup d₁ = some ino →
      lookup d₂ = some ino → d₁ = d₂ := by
  have hinit : Inv lookup dirs (System.init lookup files dirs fd) := inv_init files fd
  have hinv : ∀ {pre : List Action} {s : System}, (∀ a ∈ pre, a.OnlyCreates) →
      Lib.run System.step (System.init lookup files dirs fd) pre = some s → Inv lookup dirs s :=
    fun hpre hs => run_invariant (fun s a s' => inv_step) hinit hpre hs
  have hexact := fun {d : Bytes} {ino : Inode} (hd : d ∈ dirs) (hlookup : lookup d = some ino) =>
    exact_or_missing hinit hlookup (exact_init files fd hd) has hrun
  constructor
  · intro hsame ino op hmem d₁ hd₁ d₂ hd₂ hlookup₁ hlookup₂
    -- both listings have all names, so every creation was reported to both
    have hreported : ∀ d ∈ dirs, lookup d = some ino →
        EachStep System.step (Reported d ino) (System.init lookup files dirs fd) as := by
      intro d hd hlookup
      rcases hexact hd hlookup with ⟨heach, -⟩ | ⟨-, -, n, hn, hmissing⟩
      · exact heach
      · rw [ht.account_eq] at hmissing
        have hkey : d ∈ t.path :=
          ((hinv has hrun).listed d hd (by rw [hlookup]; rfl)).resolve_left (ht.not_mem_unlisted d)
        exact absurd ((hsame ino d hkey d hkey hlookup hlookup).2 n hn) hmissing
    obtain ⟨pre, s, hpre, hs⟩ := exists_run_of_mem hrun hmem
    have hunlisted := (hstarted pre _ hpre s hs ⟨ino, op, rfl⟩).unlisted_eq_nil
    have hsub : ∀ d ∈ dirs, lookup d = some ino → s.Subscribed d ino := by
      intro d hd hlookup
      apply (hreported d hd hlookup pre _ hpre s hs op rfl).resolve_left
      rw [hunlisted]
      exact List.not_mem_nil
    exact subscribed_unique (hsub d₁ hd₁ hlookup₁) (hsub d₂ hd₂ hlookup₂)
  · intro hsole
    have hnames : ∀ ino, ∀ d ∈ t.path, lookup d = some ino →
        ∀ n, n ∈ t.path.listing d ↔ n ∈ (t.files ino).names := by
      intro ino d hkey hlookup n
      have hd := ((hinv has hrun).keys d hkey).1
      have heach : EachStep System.step (Reported d ino) (System.init lookup files dirs fd) as := by
        rintro pre a hpre s hs op rfl
        have hmem : .op ino op ∈ as := hpre.subset (by simp)
        have hpre' : ∀ a ∈ pre, a.OnlyCreates := fun a ha => has a (hpre.subset (by simp [ha]))
        have hs' := hinv hpre' hs
        have hunwatched := (hstarted pre _ hpre s hs ⟨ino, op, rfl⟩).unwatched_eq_nil
        right
        rw [subscribed_iff_watched hs' fun d' hd' h' => hsole ino op hmem d' hd' d hd h' hlookup]
        apply (hs'.watched d hd ino hlookup).resolve_left
        rw [hunwatched]
        exact List.not_mem_nil
      rcases hexact hd hlookup with ⟨-, hperm⟩ | ⟨hnot, -⟩
      · rw [← ht.account_eq]
        exact (hperm.resolve_left (ht.not_mem_unlisted d)).mem_iff
      · exact absurd heach hnot
    intro ino d₁ hd₁ d₂ hd₂ hlookup₁ hlookup₂
    have h₁ := hnames ino d₁ hd₁ hlookup₁
    have h₂ := hnames ino d₂ hd₂ hlookup₂
    exact ⟨fun n => (h₁ n).trans (h₂ n).symm, fun n hn => (h₁ n).mpr hn⟩

/-- `/bin`, and a second directory with two names. -/
def optLookup (path : Bytes) : Option Inode :=
  if path = bytes "/bin" then some 7
  else if path = bytes "/opt" ∨ path = bytes "/opt/" then some 8
  else none

/-- A `PATH` that names `/bin` twice and the other directory by both its names. -/
def optDirs : List Bytes := [bytes "/bin", bytes "/bin", bytes "/opt", bytes "/opt/"]

def optInit : System := System.init optLookup (fun _ => binDirectory) optDirs 3

/-- After start-up, `mv` is created in `/bin` and its event is handled. -/
def mvCreated : List Action := List.replicate 15 .prog ++ [createMv, .read 1, .prog, .prog]

theorem mvCreated_onlyCreates : ∀ a ∈ mvCreated, a.OnlyCreates := by
  simp [mvCreated, createMv, Action.OnlyCreates]

theorem mvCreated_started :
    EachStep System.step (fun s a => (∃ ino op, a = .op ino op) → s.Started) optInit
      mvCreated := by
  refine eachStep_append.mpr ⟨?_, fun s hs => ?_⟩
  · intro pre a hpre s hs hop
    have ha : a = .prog := List.eq_of_mem_replicate (hpre.subset (by simp))
    simp [ha] at hop
  · have hstarted : s.Started := by
      cases hs
      trivial
    simp [eachStep_cons, hstarted]

/-- Nothing is created in the directory with two names. -/
theorem mvCreated_sole {ino : Inode} {op : DirOp} (hmem : .op ino op ∈ mvCreated) :
    ∀ d₁ ∈ optDirs, ∀ d₂ ∈ optDirs, optLookup d₁ = some ino → optLookup d₂ = some ino →
      d₁ = d₂ := by
  obtain ⟨rfl, -⟩ : ino = 7 ∧ op = ⟨.create, bytes "mv", false, 0⟩ := by
    simpa [mvCreated, createMv] using hmem
  decide

/-- `aliases_iff` for `mvCreated`. -/
theorem aliases_iff_bin :
    ∃ t, Lib.run System.step optInit mvCreated = some t ∧ t.Quiescent ∧
      (∀ ino, ∀ d₁ ∈ t.path, ∀ d₂ ∈ t.path, optLookup d₁ = some ino → optLookup d₂ = some ino →
        (∀ n, n ∈ t.path.listing d₁ ↔ n ∈ t.path.listing d₂) ∧
          ∀ n ∈ (t.files ino).names, n ∈ t.path.listing d₁) :=
  ⟨_, rfl, ⟨rfl, rfl, rfl⟩,
    (aliases_iff mvCreated_onlyCreates mvCreated_started rfl ⟨rfl, rfl, rfl⟩).mpr fun _ _ hmem =>
      mvCreated_sole hmem⟩

/-- `/bin` and `/bin/` are one directory. -/
def twoNamesLookup (path : Bytes) : Option Inode :=
  if path = bytes "/bin" ∨ path = bytes "/bin/" then some 7 else none

/-- The program started with `/bin:/bin/` as its `PATH`. -/
def twoNamesInit : System :=
  System.init twoNamesLookup (fun _ => binDirectory) [bytes "/bin", bytes "/bin/"] 3

/-- After start-up, `mv` is created in the directory: only `/bin` lists it. -/
theorem created_under_one_name :
    ∃ t, Lib.run System.step twoNamesInit
        (List.replicate 9 .prog ++ [createMv, .read 1, .prog, .prog]) = some t ∧
      t.Quiescent ∧ twoNamesLookup (bytes "/bin") = twoNamesLookup (bytes "/bin/") ∧
      bytes "/bin" ∈ t.path ∧ bytes "/bin/" ∈ t.path ∧
      bytes "mv" ∈ t.path.listing (bytes "/bin") ∧
      bytes "mv" ∉ t.path.listing (bytes "/bin/") :=
  ⟨_, rfl, ⟨rfl, rfl, rfl⟩, by decide, by decide, by decide, by decide, by decide⟩

end TudorDo
