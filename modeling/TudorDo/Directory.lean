import Mathlib.Data.List.Nodup
import TudorDo.Inotify
import TudorDo.Lib.Run

/-!
# A watched directory

The operations that change the names in a directory, and the event the kernel queues for each. A
file moved in over an existing name replaces that file: the directory has the names it had, and the
only event is the one of the file moved in.
-/

namespace TudorDo

open Lib

/-- The names in a directory, in the order a reader of the directory gets them. -/
structure Directory where
  names : List Bytes
  nodup : names.Nodup

inductive OpKind
  | create
  | delete
  /-- a file moved in under a free name -/
  | moveIn
  /-- a file moved in over an existing name -/
  | moveOver
  | moveOut
  deriving DecidableEq

namespace OpKind

/-- The operation takes its name out of the directory. -/
def removes : OpKind → Bool
  | .delete | .moveOut => true
  | .create | .moveIn | .moveOver => false

/-- The mask of the event queued; `isDir` says what the name stands for. -/
def mask (isDir : Bool) (kind : OpKind) : UInt32 :=
  (match kind with
    | .create => inCreate
    | .delete => inDelete
    | .moveIn => inMovedTo
    | .moveOver => inMovedTo
    | .moveOut => inMovedFrom) ||| (if isDir then inIsdir else 0)

theorem isType_mask_adds (isDir : Bool) (kind : OpKind) :
    (isType (kind.mask isDir) inCreate || isType (kind.mask isDir) inMovedTo) = !kind.removes := by
  cases kind <;> cases isDir <;> decide

theorem isType_mask_removes (isDir : Bool) (kind : OpKind) :
    (isType (kind.mask isDir) inDelete || isType (kind.mask isDir) inMovedFrom) = kind.removes := by
  cases kind <;> cases isDir <;> decide

theorem isType_mask_ignored (isDir : Bool) (kind : OpKind) :
    isType (kind.mask isDir) inIgnored = false := by
  cases kind <;> cases isDir <;> decide

end OpKind

/-- One operation on a name of a directory; the cookie ties the two ends of a move together. -/
structure DirOp where
  kind : OpKind
  name : Bytes
  isDir : Bool
  cookie : UInt32
  deriving DecidableEq

namespace DirOp

def Removes (op : DirOp) : Prop := op.kind.removes = true

instance (op : DirOp) : Decidable op.Removes := inferInstanceAs (Decidable (_ = _))

/-- The event queued for the operation, for a directory watched under `wd`. -/
def event (wd : Int) (op : DirOp) : RawEvent := ⟨wd, op.kind.mask op.isDir, op.cookie, op.name⟩

end DirOp

/-- The kernel queues the event of an operation on a directory that is watched, and no other. -/
def Kernel.emit (k : Kernel) (ino : Inode) (op : DirOp) : Kernel :=
  if ino ∈ k.watched then { k with queue := k.queue ++ [op.event (k.wd ino)] } else k

namespace Directory

/-- The directory after an operation; `none` where the operation is not possible. -/
def apply (D : Directory) (op : DirOp) : Option Directory :=
  match op.kind with
  | .create | .moveIn =>
    if h : op.name ∈ D.names then none
    else some ⟨D.names ++ [op.name], by
      simpa [List.nodup_append, D.nodup] using fun a ha (hne : a = op.name) => h (hne ▸ ha)⟩
  | .moveOver => if op.name ∈ D.names then some D else none
  | .delete | .moveOut =>
    if op.name ∈ D.names then some ⟨D.names.erase op.name, D.nodup.erase _⟩ else none

/-- The directory after a sequence of operations. -/
def applyAll (D : Directory) (ops : List DirOp) : Option Directory := run apply D ops

theorem mem_apply_of_not_removes {D D' : Directory} {op : DirOp} (h : D.apply op = some D')
    (hop : ¬ op.Removes) (n : Bytes) : n ∈ D'.names ↔ n ∈ D.names ∨ n = op.name := by
  unfold apply at h
  cases hkind : op.kind with
  | create | moveIn =>
      simp only [hkind, Option.dite_none_left_eq_some, Option.some.injEq] at h
      obtain ⟨-, rfl⟩ := h
      simp
  | moveOver =>
      simp only [hkind, Option.ite_none_right_eq_some, Option.some.injEq] at h
      obtain ⟨hmem, rfl⟩ := h
      exact ⟨.inl, fun h => h.elim id fun he => he ▸ hmem⟩
  | delete | moveOut => simp [DirOp.Removes, OpKind.removes, hkind] at hop

theorem apply_of_removes {D D' : Directory} {op : DirOp} (h : D.apply op = some D')
    (hop : op.Removes) : op.name ∈ D.names ∧ D'.names = D.names.erase op.name := by
  unfold apply at h
  cases hkind : op.kind with
  | delete | moveOut =>
      simp only [hkind, Option.ite_none_right_eq_some, Option.some.injEq] at h
      exact ⟨h.1, by rw [← h.2]⟩
  | create | moveIn | moveOver => simp [DirOp.Removes, OpKind.removes, hkind] at hop

theorem not_mem_apply_of_removes {D D' : Directory} {op : DirOp} (h : D.apply op = some D')
    (hop : op.Removes) : op.name ∉ D'.names := by
  rw [(apply_of_removes h hop).2]
  exact D.nodup.not_mem_erase

theorem apply_create {D D' : Directory} {op : DirOp} (h : D.apply op = some D')
    (hop : op.kind = .create) : op.name ∉ D.names ∧ D'.names = D.names ++ [op.name] := by
  simp only [apply, hop, Option.dite_none_left_eq_some, Option.some.injEq] at h
  exact ⟨h.1, by rw [← h.2]⟩

end Directory

end TudorDo
