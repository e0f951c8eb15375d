import Mathlib.Data.List.Basic
import TudorDo.Glib
import TudorDo.Util

/-!
# `xkeybind.cpp`: the hotkey

`bind_key` reads a hotkey such as `Alt+F2` and grabs the key in four combinations with CapsLock and
NumLock. What Xlib knows of keys is a parameter: the names of the key symbols, the keys of the
keyboard and the modifiers they are attached to.

`mem_bindKey_append` has the four grabs of a hotkey. Their masks are unions of the masks of the eight
modifiers (`isModifierUnion_getModifiermask`), unless no modifier is named at all, and the one for
NumLock is that of the modifier it is attached to (`getNumlockMask_cases`).
-/

namespace TudorDo

open Lib Lib.Ascii Glib

namespace XKeyBind

/-! ## Xlib -/

abbrev KeySym := UInt64

abbrev KeyCode := UInt8

/-- `NoSymbol`. -/
def noSymbol : KeySym := 0

/-- `AnyKey`. -/
def anyKey : KeyCode := 0

def shiftMask : UInt32 := 1
def lockMask : UInt32 := 2
def controlMask : UInt32 := 4
def mod1Mask : UInt32 := 8
def mod4Mask : UInt32 := 64

/-- `AnyModifier`. -/
def anyModifier : UInt32 := 32768

/-- What Xlib answers about keys. -/
structure Xlib where
  /-- `XStringToKeysym` -/
  stringToKeysym : Bytes → KeySym
  /-- `XKeysymToKeycode` -/
  keysymToKeycode : KeySym → KeyCode
  keysymToKeycode_noSymbol : keysymToKeycode noSymbol = 0
  /-- `XK_Num_Lock` -/
  numLock : KeySym
  /-- `max_keypermod` of `XGetModifierMapping` -/
  maxKeypermod : Nat
  /-- `modifiermap`: for each of the eight modifiers its keys, filled up with zeros -/
  modifiermap : List KeyCode
  length_modifiermap : modifiermap.length = 8 * maxKeypermod

/-- What a call of `XGrabKey` asks for. -/
structure Grab where
  keycode : KeyCode
  modifiers : UInt32
  deriving DecidableEq

/-! ## The source -/

/-- `get_keycode`. -/
def getKeycode (x : Xlib) (character : Bytes) : KeyCode :=
  x.keysymToKeycode (x.stringToKeysym (cStr character))

/-- The branches for one modifier. -/
def addModifier (mask : UInt32) (modifier : Bytes) : UInt32 :=
  if modifier = bytes "CTRL" then mask ||| controlMask
  else if modifier = bytes "ALT" ∨ modifier = bytes "MOD1" then mask ||| mod1Mask
  else if modifier = bytes "SHIFT" then mask ||| shiftMask
  else if modifier = bytes "SUPER" ∨ modifier = bytes "MOD4" then mask ||| mod4Mask
  else mask

/-- `get_modifiermask`. -/
def getModifiermask (modifierStr : Bytes) : UInt32 :=
  if modifierStr = [] then anyModifier
  else (split (upper modifierStr) plus).foldl addModifier 0

/-- `get_numlock_mask`. -/
def getNumlockMask (x : Xlib) : UInt32 :=
  let numlock := x.keysymToKeycode x.numLock
  (List.range 8).foldl (fun mask i =>
    (List.range x.maxKeypermod).foldl (fun mask j =>
      if x.modifiermap[i * x.maxKeypermod + j]? = some numlock then 1 <<< UInt32.ofNat i else mask)
      mask) 0

/-- `bind_key`, with the grabs it asks for. -/
def bindKey (x : Xlib) (keystring : Bytes) : List Grab :=
  match Str.findLastOf plus keystring with
  | none => []
  | some pos =>
    let numlockMask := getNumlockMask x
    let keycode := getKeycode x (upper (keystring.drop (pos + 1)))
    let modifiers := getModifiermask (keystring.take pos)
    [⟨keycode, modifiers⟩, ⟨keycode, modifiers ||| lockMask⟩, ⟨keycode, modifiers ||| numlockMask⟩,
      ⟨keycode, modifiers ||| numlockMask ||| lockMask⟩]

theorem bindKey_of_not_mem (x : Xlib) {keystring : Bytes} (h : plus ∉ keystring) :
    bindKey x keystring = [] := by
  rw [bindKey, Str.findLastOf_eq_none.mpr h]

/-- The grabs for the key behind the last plus. -/
theorem mem_bindKey_append (x : Xlib) (l : Bytes) {key : Bytes} (hkey : plus ∉ key) (g : Grab) :
    g ∈ bindKey x (l ++ plus :: key) ↔
      g.keycode = getKeycode x (upper key) ∧
        (g.modifiers = getModifiermask l ∨ g.modifiers = getModifiermask l ||| lockMask ∨
          g.modifiers = getModifiermask l ||| getNumlockMask x ∨
          g.modifiers = getModifiermask l ||| getNumlockMask x ||| lockMask) := by
  have hdrop : (l ++ plus :: key).drop (l.length + 1) = key := by
    rw [← List.drop_drop, List.drop_left' rfl, List.drop_one, List.tail_cons]
  obtain ⟨keycode, modifiers⟩ := g
  rw [bindKey, Str.findLastOf_append_cons hkey]
  simp only [hdrop, List.take_left', List.mem_cons, List.not_mem_nil, or_false, Grab.mk.injEq,
    ← and_or_left]

/-! ## The masks -/

/-- A union of the masks of the eight modifiers. -/
def IsModifierUnion (mask : UInt32) : Prop := mask &&& 255 = mask

instance (mask : UInt32) : Decidable (IsModifierUnion mask) :=
  inferInstanceAs (Decidable (mask &&& 255 = mask))

theorem IsModifierUnion.or {m n : UInt32} (hm : IsModifierUnion m) (hn : IsModifierUnion n) :
    IsModifierUnion (m ||| n) := by
  have hdistrib : (m ||| n) &&& 255 = (m &&& 255) ||| (n &&& 255) :=
    UInt32.toBitVec_inj.mp BitVec.and_or_distrib_right
  rw [IsModifierUnion, hdistrib, hm, hn]

theorem isModifierUnion_addModifier {mask : UInt32} (h : IsModifierUnion mask) (modifier : Bytes) :
    IsModifierUnion (addModifier mask modifier) := by
  unfold addModifier
  split_ifs
  · exact h.or (by decide)
  · exact h.or (by decide)
  · exact h.or (by decide)
  · exact h.or (by decide)
  · exact h

theorem isModifierUnion_getModifiermask {modifierStr : Bytes} (hne : modifierStr ≠ []) :
    IsModifierUnion (getModifiermask modifierStr) := by
  rw [getModifiermask, if_neg hne]
  generalize split (upper modifierStr) plus = modifiers
  exact List.foldlRecOn modifiers addModifier (by decide)
    fun mask h modifier _ => isModifierUnion_addModifier h modifier

/-- A loop in which a hit overwrites what was found before ends with the last hit. -/
theorem foldl_range_last {β : Type} (step : β → Nat → β) (Hit : Nat → Prop) (value : Nat → β)
    (hit : ∀ b i, Hit i → step b i = value i) (miss : ∀ b i, ¬ Hit i → step b i = b) (b : β)
    (n : Nat) :
    ((List.range n).foldl step b = b ∧ ∀ i < n, ¬ Hit i) ∨
      ∃ i < n, (List.range n).foldl step b = value i ∧ Hit i ∧ ∀ k < n, Hit k → k ≤ i := by
  induction n with
  | zero => exact .inl ⟨rfl, fun i hi => absurd hi (Nat.not_lt_zero i)⟩
  | succ n ih =>
      rw [List.range_succ, List.foldl_append]
      show (step ((List.range n).foldl step b) n = b ∧ _) ∨
        ∃ i < n + 1, step ((List.range n).foldl step b) n = value i ∧ _
      by_cases hn : Hit n
      · exact .inr ⟨n, Nat.lt_succ_self n, hit _ n hn, hn, fun k hk _ => Nat.le_of_lt_succ hk⟩
      rw [miss _ n hn]
      have hlast : ∀ k < n + 1, Hit k → k < n := by
        intro k hk hkhit
        apply lt_of_le_of_ne (Nat.le_of_lt_succ hk)
        rintro rfl
        exact hn hkhit
      rcases ih with ⟨heq, hnone⟩ | ⟨i, hi, heq, hihit, hmax⟩
      · exact .inl ⟨heq, fun k hk hkhit => hnone k (hlast k hk hkhit) hkhit⟩
      · exact .inr ⟨i, by omega, heq, hihit, fun k hk hkhit => hmax k (hlast k hk hkhit) hkhit⟩

/-- The key of NumLock is one of the keys of the modifier `i`. -/
def IsNumlock (x : Xlib) (i : Nat) : Prop :=
  ∃ j < x.maxKeypermod,
    x.modifiermap[i * x.maxKeypermod + j]? = some (x.keysymToKeycode x.numLock)

/-- The mask for NumLock is that of the last modifier with the key of NumLock, if there is one.
Without such a key on the keyboard the zeros the lists of keys are filled up with count for it. -/
theorem getNumlockMask_cases (x : Xlib) :
    (getNumlockMask x = 0 ∧ ∀ i < 8, ¬ IsNumlock x i) ∨
      ∃ i < 8, getNumlockMask x = 1 <<< UInt32.ofNat i ∧ IsNumlock x i ∧
        ∀ k < 8, IsNumlock x k → k ≤ i := by
  have hrow := fun (mask : UInt32) (i : Nat) =>
    foldl_range_last
      (fun mask j =>
        if x.modifiermap[i * x.maxKeypermod + j]? = some (x.keysymToKeycode x.numLock) then
          1 <<< UInt32.ofNat i
        else mask)
      _ (fun _ => 1 <<< UInt32.ofNat i) (fun _ _ h => if_pos h) (fun _ _ h => if_neg h) mask
      x.maxKeypermod
  unfold getNumlockMask
  refine foldl_range_last _ (IsNumlock x) (fun i => 1 <<< UInt32.ofNat i) (fun mask i hi => ?_)
    (fun mask i hi => ?_) 0 8
  · rcases hrow mask i with ⟨-, hnone⟩ | ⟨j, -, heq, -⟩
    · obtain ⟨j, hj, hkey⟩ := hi
      exact absurd hkey (hnone j hj)
    · exact heq
  · rcases hrow mask i with ⟨heq, -⟩ | ⟨j, hj, -, hkey, -⟩
    · exact heq
    · exact absurd ⟨j, hj, hkey⟩ hi

theorem isModifierUnion_getNumlockMask (x : Xlib) : IsModifierUnion (getNumlockMask x) := by
  rcases getNumlockMask_cases x with ⟨h, -⟩ | ⟨i, hi, h, -⟩
  · rw [h]
    decide
  · have hbits : ∀ i < 8, IsModifierUnion (1 <<< UInt32.ofNat i) := by decide
    rw [h]
    exact hbits i hi

end XKeyBind

end TudorDo
