import TudorDo.XKeyBind.Modifiers

/-!
# Which hotkeys work

A hotkey names modifiers and a key. The modifiers are found in any spelling; the name of the key is
changed to upper case before Xlib is asked for it, and Xlib knows `space` but not `SPACE`. So a
hotkey is what it says for the keys whose name survives this, unless an unused slot of the modifier
map is taken for NumLock: `hotkey_means_iff`. A name Xlib does not know has the keycode zero, and no
modifier at all is `AnyModifier`; neither is looked at before the key is grabbed: `grabs_valid_iff`
says for which strings all grabs are proper ones.
-/

namespace TudorDo.XKeyBind

open Lib Lib.Ascii Glib

variable {x : Xlib}

/-! ## Reading the modifiers -/

/-- The modifiers `get_modifiermask` knows. -/
def modifierNames : List (Bytes × UInt32) :=
  [(bytes "CTRL", controlMask), (bytes "ALT", mod1Mask), (bytes "MOD1", mod1Mask),
    (bytes "SHIFT", shiftMask), (bytes "SUPER", mod4Mask), (bytes "MOD4", mod4Mask)]

/-- The modifiers `ms`, each in a spelling of its own, in front of a key. -/
def hotkey (ms : List (Bytes × UInt32)) (key : Bytes) : Bytes :=
  [plus].intercalate (ms.map Prod.fst) ++ plus :: key

/-- The union of masks. -/
def union (masks : List UInt32) : UInt32 := masks.foldl (· ||| ·) 0

theorem addModifier_of_mem {name : Bytes} {bit : UInt32} (h : (name, bit) ∈ modifierNames)
    (mask : UInt32) : addModifier mask name = mask ||| bit := by
  have hbits : ∀ m ∈ modifierNames, addModifier 0 m.1 = m.2 := by decide
  rw [addModifier_eq, hbits _ h]

theorem upper_intercalate (ws : List Bytes) :
    upper ([plus].intercalate ws) = [plus].intercalate (ws.map upper) := by
  induction ws with
  | nil => rfl
  | cons w ws ih =>
      cases ws with
      | nil => simp
      | cons w' ws =>
          rw [List.map_cons, List.map_cons, List.intercalate_cons_cons, List.intercalate_cons_cons,
            ← List.map_cons, ← ih, List.append_assoc, List.append_assoc, List.singleton_append,
            List.singleton_append, upper_append_plus]

section Hotkey

variable {ms : List (Bytes × UInt32)} (hms : ∀ m ∈ ms, (upper m.1, m.2) ∈ modifierNames)

include hms

theorem ne_nil_and_plus_not_mem {w : Bytes} (h : w ∈ (ms.map Prod.fst).map upper) :
    w ≠ [] ∧ plus ∉ w := by
  have hnames : ∀ m ∈ modifierNames, m.1 ≠ [] ∧ plus ∉ m.1 := by decide
  rw [List.map_map] at h
  obtain ⟨m, hm, rfl⟩ := List.mem_map.mp h
  exact hnames _ (hms m hm)

theorem foldl_addModifier (mask : UInt32) :
    ((ms.map Prod.fst).map upper).foldl addModifier mask =
      (ms.map Prod.snd).foldl (· ||| ·) mask := by
  induction ms generalizing mask with
  | nil => rfl
  | cons m ms ih =>
      obtain ⟨hm, hms⟩ := List.forall_mem_cons.mp hms
      simp only [List.map_cons, List.foldl_cons]
      rw [addModifier_of_mem hm, ih hms]

/-- The mask of a hotkey is the union of the masks of its modifiers. -/
theorem getModifiermask_intercalate (hne : ms ≠ []) :
    getModifiermask ([plus].intercalate (ms.map Prod.fst)) = union (ms.map Prod.snd) := by
  have hnames := fun w (hw : w ∈ (ms.map Prod.fst).map upper) =>
    ne_nil_and_plus_not_mem hms hw
  have hsplit : (upper ([plus].intercalate (ms.map Prod.fst))).splitOn plus =
      (ms.map Prod.fst).map upper := by
    rw [upper_intercalate, List.splitOn_intercalate plus (fun w hw => (hnames w hw).2)]
    simpa using hne
  have hne' : [plus].intercalate (ms.map Prod.fst) ≠ [] := by
    intro hnil
    rw [hnil] at hsplit
    have hmem : ([] : Bytes) ∈ (ms.map Prod.fst).map upper := hsplit ▸ List.mem_singleton_self []
    exact (hnames [] hmem).1 rfl
  rw [getModifiermask_eq hne', hsplit, foldl_addModifier hms, union]

end Hotkey

/-! ## A hotkey that is what it says -/

/-- The modifiers, with each combination of CapsLock and NumLock, whose mask is `num`. -/
def Combination (mask num m : UInt32) : Prop :=
  m = mask ∨ m = mask ||| lockMask ∨ m = mask ||| num ∨ m = mask ||| lockMask ||| num

/-- `bind_key` grabs the key and no other, with the combinations and no other modifiers. -/
def GrabsExactly (x : Xlib) (keystring : Bytes) (keycode : KeyCode) (mask num : UInt32) : Prop :=
  ∀ g, g ∈ bindKey x keystring ↔ g.keycode = keycode ∧ Combination mask num g.modifiers

/-- The name of a key is one in upper case too, and of the same key. -/
structure SameInUpper (x : Xlib) (key : Bytes) : Prop where
  known : x.stringToKeysym (cStr (upper key)) ≠ noSymbol
  same : x.keysymToKeycode (x.stringToKeysym (cStr (upper key))) =
    x.keysymToKeycode (x.stringToKeysym (cStr key))

/-- The modifier `i` has an unused slot. -/
def HasUnused (x : Xlib) (i : Nat) : Prop :=
  ∃ j < x.maxKeypermod, x.modifiermap[i * x.maxKeypermod + j]? = some 0

/-- The modifier `i` is the last with an unused slot. -/
structure LastUnused (x : Xlib) (i : Nat) : Prop where
  lt : i < 8
  unused : HasUnused x i
  last : ∀ k < 8, HasUnused x k → k ≤ i

/-- Looking NumLock up by its keycode does no harm to the modifiers `mask`: there is such a key, or no
unused slot to be taken for it, or the one taken is that of CapsLock or of a modifier in `mask`. -/
def NumlockHarmless (x : Xlib) (mask : UInt32) : Prop :=
  x.keysymToKeycode x.numLock ≠ 0 ∨ 0 ∉ x.modifiermap ∨
    ∃ i, LastUnused x i ∧
      (1 <<< UInt32.ofNat i = lockMask ∨ mask ||| 1 <<< UInt32.ofNat i = mask)

theorem IsNumlockMask.unique {m n : UInt32} (hm : IsNumlockMask x m) (hn : IsNumlockMask x n) :
    m = n := by
  rcases hm with ⟨i, hi, rfl, hkeycode, hrow, hlast⟩ | ⟨rfl, hm⟩
  · rcases hn with ⟨k, hk, rfl, -, hrow', hlast'⟩ | ⟨-, h | h⟩
    · rw [Nat.le_antisymm (hlast' i hi hrow) (hlast k hk hrow')]
    · exact absurd h hkeycode
    · exact absurd hrow (h i hi)
  · rcases hn with ⟨k, hk, -, hkeycode, hrow, -⟩ | ⟨rfl, -⟩
    · rcases hm with h | h
      · exact absurd h hkeycode
      · exact absurd hrow (h k hk)
    · rfl

/-- Without a key for NumLock the mask found is that of the last modifier with an unused slot. -/
theorem getNumlockMask_of_unused (hkeycode : x.keysymToKeycode x.numLock = 0)
    (hunused : 0 ∈ x.modifiermap) :
    ∃ i, LastUnused x i ∧ getNumlockMask x = 1 <<< UInt32.ofNat i := by
  have hrows : ∀ i, IsNumlock x i ↔ HasUnused x i := by
    intro i
    rw [IsNumlock, hkeycode]
    rfl
  rcases getNumlockMask_cases x with ⟨-, hnone⟩ | ⟨i, hi, hmask, hrow, hlast⟩
  · obtain ⟨i, hi, hrow⟩ := (exists_isNumlock_iff x).mpr (hkeycode.symm ▸ hunused)
    exact absurd hrow (hnone i hi)
  · exact ⟨i, ⟨hi, (hrows i).mp hrow, fun k hk hk' => hlast k hk ((hrows k).mpr hk')⟩, hmask⟩

theorem LastUnused.unique {i k : Nat} (hi : LastUnused x i) (hk : LastUnused x k) : i = k :=
  Nat.le_antisymm (hk.last i hi.lt hi.unused) (hi.last k hk.lt hk.unused)

/-- A bit that `m ||| l` has, and `l` has not, is one of `m`. -/
theorem or_eq_left {m n l : UInt32} (h : m ||| n = m ||| l) (hdisjoint : l &&& n = 0) :
    m ||| n = m := by
  have hbit : ∀ a b c : Bool, (a || b) = (a || c) → (c && b) = false → (a || b) = a := by decide
  apply UInt32.toBitVec_inj.mp
  apply BitVec.eq_of_getElem_eq
  intro i hi
  have hi₁ : (m ||| n).toBitVec[i] = (m ||| l).toBitVec[i] := by rw [h]
  have hi₂ : (l &&& n).toBitVec[i] = (0 : UInt32).toBitVec[i] := by rw [hdisjoint]
  simp only [UInt32.toBitVec_or, UInt32.toBitVec_and, BitVec.getElem_or, BitVec.getElem_and] at hi₁ hi₂ ⊢
  exact hbit _ _ _ hi₁ (hi₂.trans (by simp))

/-- One more modifier makes no other combinations if and only if it is CapsLock or there already. -/
theorem combination_iff (mask : UInt32) {i : Nat} (hi : i < 8) :
    (∀ m, Combination mask (1 <<< UInt32.ofNat i) m ↔ Combination mask 0 m) ↔
      1 <<< UInt32.ofNat i = lockMask ∨ mask ||| 1 <<< UInt32.ofNat i = mask := by
  have hlock : ∀ i < 8, (1 : UInt32) <<< UInt32.ofNat i = lockMask ∨
      lockMask &&& (1 : UInt32) <<< UInt32.ofNat i = 0 := by decide
  have hlock := hlock i hi
  generalize (1 : UInt32) <<< UInt32.ofNat i = bit at hlock ⊢
  simp only [Combination, UInt32.or_zero]
  constructor
  · intro h
    rcases hlock with hlock | hdisjoint
    · exact .inl hlock
    · right
      rcases (h (mask ||| bit)).mp (.inr (.inr (.inl rfl))) with heq | heq | heq | heq
      · exact heq
      · exact or_eq_left heq hdisjoint
      · exact heq
      · exact or_eq_left heq hdisjoint
  · rintro (rfl | hmask) m
    · rw [UInt32.or_assoc, UInt32.or_self]
      tauto
    · rw [UInt32.or_assoc, UInt32.or_comm lockMask, ← UInt32.or_assoc, hmask]

/-- What is found for NumLock is as good as its mask if and only if looking it up does no harm. -/
theorem combination_getNumlockMask_iff {num : UInt32} (hnum : IsNumlockMask x num) (mask : UInt32) :
    (∀ m, Combination mask (getNumlockMask x) m ↔ Combination mask num m) ↔
      NumlockHarmless x mask := by
  by_cases hfound : x.keysymToKeycode x.numLock ≠ 0 ∨ 0 ∉ x.modifiermap
  · rw [((getNumlockMask_correct_iff x).mpr hfound).unique hnum]
    exact iff_of_true (fun _ => Iff.rfl) (hfound.imp_right .inl)
  · obtain ⟨hkeycode, hunused⟩ := not_or.mp hfound
    have hkeycode := not_not.mp hkeycode
    have hunused := not_not.mp hunused
    have hzero : IsNumlockMask x 0 := .inr ⟨rfl, .inl hkeycode⟩
    obtain ⟨i, hi, hmask⟩ := getNumlockMask_of_unused hkeycode hunused
    rw [hnum.unique hzero, hmask, combination_iff mask hi.lt]
    constructor
    · exact fun h => .inr (.inr ⟨i, hi, h⟩)
    · rintro (h | h | ⟨k, hk, h⟩)
      · exact absurd hkeycode h
      · exact absurd hunused h
      · exact hi.unique hk ▸ h

/-- **A hotkey is what it says.** With any of the modifiers in any spelling, a key of the keyboard is
grabbed exactly as the hotkey says if and only if its name in upper case is a name of the same key,
and nothing but NumLock is taken for NumLock where it would matter. -/
theorem hotkey_means_iff {ms : List (Bytes × UInt32)} (hne : ms ≠ [])
    (hms : ∀ m ∈ ms, (upper m.1, m.2) ∈ modifierNames) {key : Bytes} (hkey : plus ∉ key)
    (hmapped : getKeycode x key ≠ 0) {num : UInt32} (hnum : IsNumlockMask x num) :
    GrabsExactly x (hotkey ms key) (getKeycode x key) (union (ms.map Prod.snd)) num ↔
      SameInUpper x key ∧ NumlockHarmless x (union (ms.map Prod.snd)) := by
  have hbind := mem_bindKey_append x ([plus].intercalate (ms.map Prod.fst)) hkey
  rw [getModifiermask_intercalate hms hne] at hbind
  generalize union (ms.map Prod.snd) = mask at hbind ⊢
  have hgrabs : ∀ g, g ∈ bindKey x (hotkey ms key) ↔
      g.keycode = getKeycode x (upper key) ∧ Combination mask (getNumlockMask x) g.modifiers := by
    intro g
    rw [hotkey, hbind, Combination, UInt32.or_assoc mask, UInt32.or_assoc mask,
      UInt32.or_comm lockMask]
  rw [← combination_getNumlockMask_iff hnum]
  constructor
  · intro h
    have hmem : (⟨getKeycode x (upper key), mask⟩ : Grab) ∈ bindKey x (hotkey ms key) :=
      (hgrabs _).mpr ⟨rfl, .inl rfl⟩
    have hsame : getKeycode x (upper key) = getKeycode x key := ((h _).mp hmem).1
    refine ⟨⟨fun hunknown => hmapped ?_, hsame⟩, fun m => ?_⟩
    · rw [← hsame, getKeycode, hunknown]
      exact x.keysymToKeycode_noSymbol
    · -- the grabs of the key, by their modifiers
      have hgrab := (hgrabs ⟨getKeycode x key, m⟩).symm.trans (h ⟨getKeycode x key, m⟩)
      simpa only [hsame, true_and] using hgrab
  · rintro ⟨hkeycode, hmasks⟩ g
    have hsame : getKeycode x (upper key) = getKeycode x key := hkeycode.same
    rw [hgrabs, hsame, hmasks]

/-- A keyboard with a space bar, the key `F2` and the key of NumLock. -/
def keyboard : Xlib where
  stringToKeysym name :=
    if name = bytes "space" then 0x20 else if name = bytes "F2" then 0xFFBF else noSymbol
  keysymToKeycode keysym :=
    if keysym = 0x20 then 65 else if keysym = 0xFFBF then 68 else if keysym = 0xFF7F then 77 else 0
  keysymToKeycode_noSymbol := by decide
  numLock := 0xFF7F
  maxKeypermod := 1
  modifiermap := [50, 66, 37, 64, 77, 0, 133, 92]
  length_modifiermap := rfl

/-- The same without the key of NumLock. -/
def smallKeyboard : Xlib :=
  { keyboard with
    keysymToKeycode := fun keysym => if keysym = 0x20 then 65 else if keysym = 0xFFBF then 68 else 0
    keysymToKeycode_noSymbol := by decide
    modifiermap := [50, 66, 37, 64, 0, 0, 133, 92] }

theorem isNumlockMask_keyboard : IsNumlockMask keyboard 16 := by
  have h : getNumlockMask keyboard = 16 := by decide
  exact h ▸ (getNumlockMask_correct_iff keyboard).mpr (.inl (by decide))

theorem isNumlockMask_smallKeyboard : IsNumlockMask smallKeyboard 0 := .inr ⟨rfl, .inl (by decide)⟩

/-- `hotkey_means_iff` for the default hotkey. -/
theorem hotkey_means_iff_default : GrabsExactly keyboard (bytes "Alt+F2") 68 mod1Mask 16 := by
  have h : GrabsExactly keyboard (hotkey [(bytes "Alt", mod1Mask)] (bytes "F2"))
      (getKeycode keyboard (bytes "F2")) (union ([(bytes "Alt", mod1Mask)].map Prod.snd)) 16 :=
    (hotkey_means_iff (by decide) (by decide) (by decide) (by decide)
      isNumlockMask_keyboard).mpr ⟨⟨by decide, by decide⟩, .inl (by decide)⟩
  exact h

/-- The space bar is not grabbed; and where there is no key for NumLock, `F2` is grabbed with a
modifier that the hotkey does not name. -/
theorem hotkey_missed :
    (getKeycode keyboard (bytes "space") = 65 ∧ IsNumlockMask keyboard 16 ∧
      ¬ GrabsExactly keyboard (hotkey [(bytes "Ctrl", controlMask)] (bytes "space")) 65
        controlMask 16) ∧
    getKeycode smallKeyboard (bytes "F2") = 68 ∧ IsNumlockMask smallKeyboard 0 ∧
      ¬ GrabsExactly smallKeyboard (hotkey [(bytes "Alt", mod1Mask)] (bytes "F2")) 68 mod1Mask 0 := by
  refine ⟨⟨by decide, isNumlockMask_keyboard, fun h => ?_⟩, by decide, isNumlockMask_smallKeyboard,
    fun h => ?_⟩
  · have hmem : (⟨0, controlMask⟩ : Grab) ∈
        bindKey keyboard (hotkey [(bytes "Ctrl", controlMask)] (bytes "space")) := by decide
    have hkeycode : (0 : KeyCode) = 65 := ((h _).mp hmem).1
    exact absurd hkeycode (by decide)
  · have hmem : (⟨68, mod1Mask ||| 32⟩ : Grab) ∈
        bindKey smallKeyboard (hotkey [(bytes "Alt", mod1Mask)] (bytes "F2")) := by decide
    have hmodifiers : Combination mod1Mask 0 (mod1Mask ||| 32) := ((h _).mp hmem).2
    unfold Combination at hmodifiers
    exact absurd hmodifiers (by decide)

/-! ## Proper grabs -/

/-- A grab of one key, under any modifiers or under some of the eight. -/
structure ProperGrab (g : Grab) : Prop where
  keycode : g.keycode ≠ anyKey
  modifiers : g.modifiers = anyModifier ∨ IsModifierUnion g.modifiers

/-- A name of a key of the keyboard. -/
structure OnKeyboard (x : Xlib) (name : Bytes) : Prop where
  known : x.stringToKeysym (cStr name) ≠ noSymbol
  mapped : x.keysymToKeycode (x.stringToKeysym (cStr name)) ≠ 0

theorem onKeyboard_iff {name : Bytes} : OnKeyboard x name ↔ getKeycode x name ≠ anyKey := by
  constructor
  · intro h
    exact h.mapped
  · intro h
    refine ⟨fun hunknown => h ?_, h⟩
    rw [getKeycode, hunknown]
    exact x.keysymToKeycode_noSymbol

theorem properGrab_iff (x : Xlib) (l : Bytes) {key : Bytes} (hkey : plus ∉ key) :
    (∀ g ∈ bindKey x (l ++ plus :: key), ProperGrab g) ↔ l ≠ [] ∧ OnKeyboard x (upper key) := by
  have hgrabs := mem_bindKey_append x l hkey
  rw [onKeyboard_iff]
  constructor
  · intro h
    refine ⟨?_, (h ⟨_, _⟩ ((hgrabs _).mpr ⟨rfl, .inl rfl⟩)).keycode⟩
    rintro rfl
    -- the second grab
    have hlock : getModifiermask [] ||| lockMask = anyModifier ∨
        IsModifierUnion (getModifiermask [] ||| lockMask) :=
      (h ⟨_, _⟩ ((hgrabs _).mpr ⟨rfl, .inr (.inl rfl)⟩)).modifiers
    exact absurd hlock (by decide)
  · rintro ⟨hl, hmapped⟩ g hg
    obtain ⟨hkeycode, hmodifiers⟩ := (hgrabs g).mp hg
    refine ⟨hkeycode ▸ hmapped, .inr ?_⟩
    have hmask := isModifierUnion_getModifiermask hl
    have hnumlock := isModifierUnion_getNumlockMask x
    have hlock : IsModifierUnion lockMask := by decide
    rcases hmodifiers with h | h | h | h
    · exact h ▸ hmask
    · exact h ▸ hmask.or hlock
    · exact h ▸ hmask.or hnumlock
    · exact h ▸ (hmask.or hnumlock).or hlock

/-- **Every grab is a proper one** for the strings without a plus, for which there is none, and for
those that have something in front of the last plus and behind it, in upper case, the name of a key
of the keyboard; for the others it is not. -/
theorem grabs_valid_iff (x : Xlib) (keystring : Bytes) :
    (∀ g ∈ bindKey x keystring, ProperGrab g) ↔
      plus ∉ keystring ∨
        ∃ l key, keystring = l ++ plus :: key ∧ plus ∉ key ∧ l ≠ [] ∧ OnKeyboard x (upper key) := by
  by_cases hplus : plus ∈ keystring
  · obtain ⟨l, key, rfl, hkey⟩ := Str.eq_append_cons_of_mem_last hplus
    have hcut : (plus ∉ l ++ plus :: key ∨ ∃ l' key', l ++ plus :: key = l' ++ plus :: key' ∧
        plus ∉ key' ∧ l' ≠ [] ∧ OnKeyboard x (upper key')) ↔
          l ≠ [] ∧ OnKeyboard x (upper key) := by
      rw [or_iff_right (not_not.mpr hplus)]
      constructor
      · rintro ⟨l', key', heq, hkey', h⟩
        obtain ⟨rfl, rfl⟩ := Str.append_cons_inj hkey hkey' heq
        exact h
      · intro h
        exact ⟨l, key, rfl, hkey, h⟩
    rw [hcut, properGrab_iff x l hkey]
  · refine iff_of_true (fun g hg => ?_) (.inl hplus)
    rw [bindKey_of_not_mem x hplus] at hg
    exact absurd hg List.not_mem_nil

/-- With nothing in front of the plus CapsLock is added to `AnyModifier`, and a key that is not found
is grabbed as every key. -/
theorem improper_grabs :
    (∃ g ∈ bindKey keyboard (bytes "+F2"), g.modifiers = anyModifier ||| lockMask) ∧
      (∃ g ∈ bindKey keyboard (bytes "Ctrl+Spcae"), g.keycode = anyKey) ∧
      ¬ ∀ keystring, ∀ g ∈ bindKey keyboard keystring, ProperGrab g := by
  refine ⟨⟨⟨68, anyModifier ||| lockMask⟩, by decide, rfl⟩, ⟨⟨0, controlMask⟩, by decide, rfl⟩, ?_⟩
  intro h
  exact (h (bytes "Ctrl+Spcae") ⟨0, controlMask⟩ (by decide)).keycode rfl

end TudorDo.XKeyBind
