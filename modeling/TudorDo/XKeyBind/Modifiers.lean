import Mathlib.Data.Multiset.Fold
import TudorDo.Util.Split
import TudorDo.XKeyBind

/-!
# The modifiers of a hotkey

Every piece of the string in front of the key adds a mask of its own to what was found before
(`addModifier_eq`), the empty pieces none, so that the mask of two strings with a plus between them
is the union of theirs. `getModifiermask_combines` has this for all strings, and from it that
neither the order of the modifiers nor repetitions nor the case of letters matter. The mask for
NumLock is looked up by its keycode, which an unused slot has too where there is no such key:
`getNumlockMask_correct_iff`.
-/

namespace TudorDo.XKeyBind

open Lib Lib.Ascii

/-! ## The loop over the pieces -/

theorem addModifier_eq (mask : UInt32) (modifier : Bytes) :
    addModifier mask modifier = mask ||| addModifier 0 modifier := by
  unfold addModifier
  split_ifs <;> simp

theorem addModifier_nil (mask : UInt32) : addModifier mask [] = mask := rfl

/-- The loop adds to the mask it starts with what it finds from nothing. -/
theorem foldl_addModifier_eq (pieces : List Bytes) (mask : UInt32) :
    pieces.foldl addModifier mask = mask ||| pieces.foldl addModifier 0 := by
  induction pieces generalizing mask with
  | nil => simp
  | cons piece pieces ih =>
      rw [List.foldl_cons, List.foldl_cons, ih, ih (addModifier 0 piece), addModifier_eq,
        UInt32.or_assoc]

theorem foldl_dropEmptyLast (pieces : List Bytes) (mask : UInt32) :
    (dropEmptyLast pieces).foldl addModifier mask = pieces.foldl addModifier mask := by
  cases pieces using List.reverseRecOn with
  | nil => rfl
  | append_singleton pieces last =>
      by_cases hlast : last = []
      · subst hlast
        rw [dropEmptyLast_append_nil, List.foldl_append, List.foldl_cons, addModifier_nil,
          List.foldl_nil]
      · rw [dropEmptyLast_append_of_ne pieces hlast]

/-- It makes no difference that `split` leaves out an empty piece at the end. -/
theorem getModifiermask_eq {s : Bytes} (hne : s ≠ []) :
    getModifiermask s = ((upper s).splitOn plus).foldl addModifier 0 := by
  rw [getModifiermask, if_neg hne, split_eq, foldl_dropEmptyLast]

/-! ## Masks of several modifiers -/

theorem upper_append_plus (s t : Bytes) : upper (s ++ plus :: t) = upper s ++ plus :: upper t := by
  simp only [upper, List.map_append, List.map_cons]
  rfl

/-- The mask of two strings with a plus between them is the union of their masks. -/
theorem getModifiermask_append {s t : Bytes} (hs : s ≠ []) (ht : t ≠ []) :
    getModifiermask (s ++ plus :: t) = getModifiermask s ||| getModifiermask t := by
  have hne : s ++ plus :: t ≠ [] := by simp
  rw [getModifiermask_eq hne, upper_append_plus, List.splitOn_append_cons_self, List.foldl_append,
    foldl_addModifier_eq, ← getModifiermask_eq hs, ← getModifiermask_eq ht]

theorem getModifiermask_of_upper_eq {s t : Bytes} (h : upper s = upper t) :
    getModifiermask s = getModifiermask t := by
  have hupper : ∀ u, upper u = [] ↔ u = [] := fun _ => List.map_eq_nil_iff
  have hnil : s = [] ↔ t = [] := by
    rw [← hupper s, ← hupper t, h]
  unfold getModifiermask
  simp only [hnil, h]

/-- The mask of strings with a plus between each two is the union of their masks. -/
theorem getModifiermask_join {ws : List Bytes} (hne : ws ≠ []) (hws : ∀ w ∈ ws, w ≠ []) :
    getModifiermask ([plus].intercalate ws) = (ws.map getModifiermask).foldr (· ||| ·) 0 := by
  induction ws with
  | nil => exact absurd rfl hne
  | cons w ws ih =>
      obtain ⟨hw, hws⟩ := List.forall_mem_cons.mp hws
      cases ws with
      | nil => simp
      | cons w' ws =>
          have hw' : w' ≠ [] := hws w' List.mem_cons_self
          have hrest : [plus].intercalate (w' :: ws) ≠ [] := by
            cases ws <;> simp [hw']
          rw [List.intercalate_cons_cons, List.append_assoc, List.singleton_append,
            getModifiermask_append hw hrest, ih (by simp) hws]
          rfl

/-- A union does not depend on the order of the masks, nor on how often one is named. -/
theorem foldr_or_congr {masks masks' : List UInt32} (h : ∀ m, m ∈ masks ↔ m ∈ masks') :
    masks.foldr (· ||| ·) 0 = masks'.foldr (· ||| ·) 0 := by
  have hdedup : Multiset.dedup (masks : Multiset UInt32) = Multiset.dedup masks' :=
    Multiset.dedup_ext.mpr h
  have hfold : ∀ l : List UInt32, l.foldr (· ||| ·) 0 =
      (Multiset.dedup (l : Multiset UInt32)).fold (fun m n : UInt32 => m ||| n) 0 := by
    intro l
    rw [Multiset.fold_dedup_idem, Multiset.coe_fold_r]
  rw [hfold, hfold, hdedup]

/-- **Modifiers combine.** The mask of two strings with a plus between them is the union of their
masks; so that the mask of several is the same for any others that have, in upper case, the same
names among them. -/
theorem getModifiermask_combines :
    (∀ s t, s ≠ [] → t ≠ [] →
      getModifiermask (s ++ plus :: t) = getModifiermask s ||| getModifiermask t) ∧
    ∀ ws ws' : List Bytes, (∀ w ∈ ws, w ≠ []) → (∀ w ∈ ws', w ≠ []) →
      (∀ name, name ∈ ws.map upper ↔ name ∈ ws'.map upper) →
      getModifiermask ([plus].intercalate ws) = getModifiermask ([plus].intercalate ws') := by
  refine ⟨fun s t => getModifiermask_append, fun ws ws' hws hws' hnames => ?_⟩
  have hsub : ∀ {vs vs' : List Bytes}, (∀ name ∈ vs.map upper, name ∈ vs'.map upper) →
      ∀ m ∈ vs.map getModifiermask, m ∈ vs'.map getModifiermask := by
    intro vs vs' h m hm
    obtain ⟨w, hw, rfl⟩ := List.mem_map.mp hm
    obtain ⟨w', hw', hupper⟩ := List.mem_map.mp (h _ (List.mem_map_of_mem hw))
    rw [← getModifiermask_of_upper_eq hupper]
    exact List.mem_map_of_mem hw'
  by_cases hne : ws = []
  · subst hne
    cases ws' with
    | nil => rfl
    | cons w ws' => exact absurd ((hnames (upper w)).mpr List.mem_cons_self) List.not_mem_nil
  · have hne' : ws' ≠ [] := by
      rintro rfl
      obtain ⟨w, hw⟩ := List.exists_mem_of_ne_nil ws hne
      exact absurd ((hnames (upper w)).mp (List.mem_map_of_mem hw)) List.not_mem_nil
    rw [getModifiermask_join hne hws, getModifiermask_join hne' hws']
    apply foldr_or_congr
    exact fun m => ⟨hsub (fun name => (hnames name).mp) m, hsub (fun name => (hnames name).mpr) m⟩

/-- `getModifiermask_combines` for two modifiers, one of them twice. -/
theorem getModifiermask_combines_two :
    getModifiermask (bytes "Ctrl+Alt") = getModifiermask (bytes "alt+CTRL+ctrl") ∧
      getModifiermask (bytes "Ctrl+" ++ plus :: bytes "+Alt") =
        getModifiermask (bytes "Ctrl+") ||| getModifiermask (bytes "+Alt") := by
  refine ⟨getModifiermask_combines.2 [bytes "Ctrl", bytes "Alt"]
    [bytes "alt", bytes "CTRL", bytes "ctrl"] (by decide) (by decide) ?_, ?_⟩
  · have h : [bytes "Ctrl", bytes "Alt"].map upper = [bytes "CTRL", bytes "ALT"] := by decide
    have h' : [bytes "alt", bytes "CTRL", bytes "ctrl"].map upper =
        [bytes "ALT", bytes "CTRL", bytes "CTRL"] := by decide
    intro name
    rw [h, h']
    simp only [List.mem_cons, List.not_mem_nil, or_false, or_self]
    exact or_comm
  · exact getModifiermask_combines.1 _ _ (by decide) (by decide)

/-! ## The mask for NumLock -/

/-- `mask` is the one for NumLock: that of the last row with its keycode, and nothing if it has no
keycode or none of the rows has it. -/
def IsNumlockMask (x : Xlib) (mask : UInt32) : Prop :=
  (∃ i < 8, mask = 1 <<< UInt32.ofNat i ∧ x.keysymToKeycode x.numLock ≠ 0 ∧ IsNumlock x i ∧
    ∀ k < 8, IsNumlock x k → k ≤ i) ∨
  mask = 0 ∧ (x.keysymToKeycode x.numLock = 0 ∨ ∀ i < 8, ¬ IsNumlock x i)

/-- The eight rows are all there is of the map. -/
theorem exists_isNumlock_iff (x : Xlib) :
    (∃ i < 8, IsNumlock x i) ↔ x.keysymToKeycode x.numLock ∈ x.modifiermap := by
  constructor
  · rintro ⟨i, -, j, -, h⟩
    exact List.mem_of_getElem? h
  · intro h
    obtain ⟨n, hn⟩ := List.mem_iff_getElem?.mp h
    have hlt : n < 8 * x.maxKeypermod := by
      rw [← x.length_modifiermap]
      exact (List.getElem?_eq_some_iff.mp hn).1
    have hwidth : 0 < x.maxKeypermod := by
      apply Nat.pos_of_ne_zero
      intro hzero
      rw [hzero] at hlt
      omega
    refine ⟨n / x.maxKeypermod, ?_, n % x.maxKeypermod, Nat.mod_lt n hwidth, ?_⟩
    · exact (Nat.div_lt_iff_lt_mul hwidth).mpr hlt
    · rw [Nat.div_add_mod']
      exact hn

/-- **The mask for NumLock** is the right one if and only if NumLock has a keycode or the map has no
unused slot; the keycode zero is found in an unused one. -/
theorem getNumlockMask_correct_iff (x : Xlib) :
    IsNumlockMask x (getNumlockMask x) ↔
      x.keysymToKeycode x.numLock ≠ 0 ∨ 0 ∉ x.modifiermap := by
  rcases getNumlockMask_cases x with ⟨hmask, hnone⟩ | ⟨i, hi, hmask, hrow, hlast⟩
  · refine iff_of_true (.inr ⟨hmask, .inr hnone⟩) ?_
    by_cases hkeycode : x.keysymToKeycode x.numLock = 0
    · right
      rw [← hkeycode, ← exists_isNumlock_iff]
      rintro ⟨i, hi, hrow⟩
      exact hnone i hi hrow
    · exact .inl hkeycode
  · by_cases hkeycode : x.keysymToKeycode x.numLock = 0
    · have hmem : 0 ∈ x.modifiermap := by
        rw [← hkeycode, ← exists_isNumlock_iff]
        exact ⟨i, hi, hrow⟩
      have hne : ∀ i < 8, (1 : UInt32) <<< UInt32.ofNat i ≠ 0 := by decide
      refine iff_of_false ?_ fun h => h.elim (fun h => h hkeycode) fun h => h hmem
      rintro (⟨_, _, _, h, _⟩ | ⟨hzero, _⟩)
      · exact h hkeycode
      · exact hne i hi (hmask.symm.trans hzero)
    · exact iff_of_true (.inl ⟨i, hi, hmask, hkeycode, hrow, hlast⟩) (.inl hkeycode)

/-- A keyboard without a key for NumLock, and with two slots a row. -/
def withoutNumlock : Xlib where
  stringToKeysym _ := noSymbol
  keysymToKeycode _ := 0
  keysymToKeycode_noSymbol := rfl
  numLock := 0xFF7F
  maxKeypermod := 2
  modifiermap := [50, 62, 66, 0, 37, 105, 64, 108, 0, 0, 0, 0, 133, 134, 92, 0]
  length_modifiermap := rfl

/-- The last row with an unused slot is taken for the one NumLock is in. -/
theorem unused_slot_found :
    getNumlockMask withoutNumlock = 128 ∧ ¬ IsNumlockMask withoutNumlock 128 := by
  refine ⟨by decide, ?_⟩
  rintro (⟨_, _, _, h, _⟩ | ⟨h, _⟩)
  · exact h rfl
  · exact absurd h (by decide)

end TudorDo.XKeyBind
