import Ucore.Vfs.LayerAnswers
import Ucore.Vfs.LayerTotal

set_option autoImplicit false

namespace Ucore.Vfs

open Ucore.Lib

variable {P N C F : Type} [DecidableEq P] [DecidableEq N]

def Device.reads : Device → Bool
  | .stdout => false
  | _ => true

def Device.writes : Device → Bool
  | .stdin => false
  | _ => true

-- The stops that are not of the file layer.
def Panic.harmless : Panic F → Prop
  | .below _ => True
  | _ => False

-- Where a call may stop.
def Stops (unsupported : Prop) (panic : Panic F) : Prop := panic.harmless ∧ ¬ unsupported

namespace FileLayer

variable (v : Mounts N) (b : Below N C F) (l : FileLayer P N C)

-- What vfs_open asks of an inode that its kind or its device does not give.
def Refuses (node : N) (flags : BitVec 32) : Prop :=
  (v.kind node = .dir ∧ (flags &&& oAccMode ≠ oRdOnly ∨ has flags oAppend = true ∨ has flags oCreat = true)) ∨
    (v.kind node = .device ∧ (has flags (oCreat ||| oTrunc ||| oExcl ||| oAppend) = true ∨ (b.device node).dopOpen flags ≠ 0))

-- A call that asks an inode for an operation that its kind does not have, or its
-- device refuses.
def Unsupported : LayerCall P N → Prop
  | .openFile proc path flags copyPath lookup => copyPath = 0 ∧ ∃ node ∈ l.found v proc path lookup, Refuses v b node flags
  | .read proc fd _ => ∃ entry ∈ l.held proc fd, v.kind entry.2 = .dir ∨ (v.kind entry.2 = .device ∧ (b.device entry.2).reads = false)
  | .write proc fd _ _ => ∃ entry ∈ l.held proc fd, v.kind entry.2 = .dir ∨ (v.kind entry.2 = .device ∧ (b.device entry.2).writes = false)
  | .seek proc fd _ _ => ∃ entry ∈ l.held proc fd, v.kind entry.2 = .dir ∨ (v.kind entry.2 = .device ∧ (b.device entry.2).dBlocks = 0)
  | .fsync proc fd => ∃ entry ∈ l.held proc fd, v.kind entry.2 = .device
  | .getdirentry proc fd _ => ∃ entry ∈ l.held proc fd, v.kind entry.2 ≠ .dir
  | _ => False

-- What vfs_lookup answers to an open.
def looked (proc : P) (path : List Char) (lookup : Except Int N) : Except Int N :=
  match vfsLookup v (l.fs.starts proc) l.fs.counts path ⟨0, lookup, 0, 0, .ok 0⟩ with
  | .ok (_, result) => result
  | .error _ => .error 0

-- An open gets to vfs_lookup.
def Reaches (proc : P) (flags : BitVec 32) (copyPath : Int) : Prop :=
  copyPath = 0 ∧ flags &&& oAccMode ≠ oAccMode ∧ ¬ (has flags oTrunc = true ∧ flags &&& oAccMode = oRdOnly) ∧
    ∃ file ∈ (l.files proc).fdArray, file.status = .none

-- What an open with O_CREAT may find.
def Creates (v : Mounts N) (flags : BitVec 32) : Except Int N → Prop
  | .error ret => ret ≠ eNoEnt
  | .ok node =>
      if has flags oExcl = true then v.kind node = .file
      else v.kind node = .dir → flags &&& oAccMode ≠ oRdOnly ∨ has flags oAppend = true

instance (flags : BitVec 32) (found : Except Int N) : Decidable (Creates v flags found) := by
  cases found <;> unfold Creates <;> infer_instance

-- No call gets to an operation that the inode does not have: an open with O_CREAT
-- that finds nothing gets to vop_create, and one that finds a directory to
-- vop_truncate; a read and a seek of a directory, a fsync of a device and a
-- getdirentry of anything but a directory get to the operation of their name. An
-- open with O_CREAT and O_EXCL keeps the reference to what it finds.
def Fits : LayerCall P N → Prop
  | .openFile proc path flags copyPath lookup => l.Reaches proc flags copyPath → has flags oCreat = true →
      Creates v flags (l.looked v proc path lookup)
  | .read proc fd _ => ∀ entry ∈ l.held proc fd, entry.1.readable = true → v.kind entry.2 ≠ .dir
  | .seek proc fd _ whence => ∀ entry ∈ l.held proc fd, (whence = lseekSet ∨ whence = lseekCur ∨ whence = lseekEnd) → v.kind entry.2 ≠ .dir
  | .fsync proc fd => ∀ entry ∈ l.held proc fd, v.kind entry.2 ≠ .device
  | .getdirentry proc fd _ => ∀ entry ∈ l.held proc fd, v.kind entry.2 = .dir
  | _ => True

def LayerCall.proc : LayerCall P N → P
  | .openFile proc _ _ _ _ => proc
  | .read proc _ _ => proc
  | .write proc _ _ _ => proc
  | .seek proc _ _ _ => proc
  | .fstat proc _ => proc
  | .fsync proc _ => proc
  | .getdirentry proc _ _ => proc
  | .dup proc _ _ => proc
  | .close proc _ => proc

-- A process calls, and no inode is near the limit of its references.
def Allowed (event : LayerCall P N) : Prop := LayerCall.proc event ∈ l.fs.procs ∧ ∀ node, l.fs.counts.refCount node + 4 < maxInodeCount

-- An entry as the calls see it; of a free one they see that it is free.
def entryView (file : File N) : Option (File N) := if file.status = .none then none else some file

-- The files, the counts and the tables are the same.
structure Unchanged (next : FileLayer P N C) : Prop where
  data : next.data = l.data
  counts : next.fs.counts = l.fs.counts
  tables : ∀ proc, (next.files proc).pwd = (l.files proc).pwd ∧
    (next.files proc).fdArray.map entryView = (l.files proc).fdArray.map entryView

-- The call does not stop in the file layer, and if it is not supported it returns an
-- error and changes nothing.
def Handled (event : LayerCall P N) : Prop :=
  Ends (Stops (l.Unsupported v b event)) (fun (ret, next) => l.Unsupported v b event → ret < 0 ∧ l.Unchanged next)
    (l.call v b event)

-- An open entry of a directory has no write access.
def ModeOk (file : File N) : Prop := ∀ node, file.status = .opened → file.node = some node → v.kind node = .dir → file.writable = false

-- The holders of the inodes are those of the counts without the references that
-- opens with O_CREAT and O_EXCL left behind.
def unleaked (c : Counts N) (leaked : N → Int) : Counts N := { c with refCount := fun node => c.refCount node - leaked node }

structure LayerInv : Prop where
  hold : ∃ leaked : N → Int, (∀ node, 0 ≤ leaked node) ∧ FsState.HoldInv v { l.fs with counts := unleaked l.fs.counts leaked }
  placed : ∀ proc ∈ l.fs.procs, Placed v (l.fs.starts proc)
  modes : ∀ proc ∈ l.fs.procs, ∀ file ∈ (l.files proc).fdArray, ModeOk v file

end FileLayer

end Ucore.Vfs
