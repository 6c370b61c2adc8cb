import Ucore.Lib.Bytes
import Ucore.Vfs.SharedTable

set_option autoImplicit false

namespace Ucore.Vfs

open Ucore.Lib

-- The entries of struct inode_ops.
inductive Vop where
  | vopOpen
  | vopClose
  | vopRead
  | vopWrite
  | vopFstat
  | vopFsync
  | vopNamefile
  | vopGetdirentry
  | vopReclaim
  | vopGettype
  | vopTryseek
  | vopTruncate
  | vopCreate
  | vopLookup
  | vopIoctl
deriving DecidableEq, Repr

-- sfs_node_dirops, sfs_node_fileops and dev_node_ops.
def InodeKind.inOps : InodeKind → List Vop
  | .dir => [.vopOpen, .vopClose, .vopFstat, .vopFsync, .vopNamefile, .vopGetdirentry, .vopReclaim, .vopGettype, .vopLookup]
  | .file => [.vopOpen, .vopClose, .vopRead, .vopWrite, .vopFstat, .vopFsync, .vopReclaim, .vopGettype, .vopTryseek, .vopTruncate]
  | .device => [.vopOpen, .vopClose, .vopRead, .vopWrite, .vopFstat, .vopIoctl, .vopGettype, .vopTryseek, .vopLookup]

-- A call that does not return: at an operation that the inode does not have, at an
-- assertion of the file layer, or in the layers below.
inductive Panic (F : Type) where
  | missing (op : Vop)
  | assertion (fault : Fault)
  | below (fault : F)
deriving DecidableEq, Repr

inductive Device where
  | stdin
  | stdout
  | disk0 (blocks : Nat)

namespace Device

def dBlocks : Device → Nat
  | .disk0 blocks => blocks
  | _ => 0

def dBlocksize : Device → Nat
  | .disk0 _ => 4096
  | _ => 1

-- stdin_open, stdout_open and disk0_open.
def dopOpen (dev : Device) (flags : BitVec 32) : Int :=
  match dev with
  | .stdin => if flags ≠ oRdOnly then eInval else 0
  | .stdout => if flags ≠ oWrOnly then eInval else 0
  | .disk0 _ => 0

-- What stdin_io, stdout_io and disk0_io answer to a transfer that they do not make.
def dopIo (dev : Device) (offset : Int) (resid : Nat) (write : Bool) : Option Int :=
  match dev with
  | .stdin => if write then some eInval else none
  | .stdout => if write then none else some eInval
  | .disk0 blocks =>
      let blkno := (offset / 4096 % 2 ^ 32).toNat
      let nblks := resid / 4096 % 2 ^ 32
      if offset % 4096 ≠ 0 ∨ resid % 4096 ≠ 0 then some eInval
      else if blocks < (blkno + nblks) % 2 ^ 32 then some eInval
      else if nblks = 0 then some 0 else none

def devTryseek (dev : Device) (pos : Int) : Int :=
  if 0 < dev.dBlocks ∧ pos % dev.dBlocksize = 0 ∧ 0 ≤ pos ∧ pos < dev.dBlocks * dev.dBlocksize then 0 else eInval

end Device

-- What the file layer calls: the operations of the file system, and the transfers
-- of the devices. C holds all that is stored, and F has the faults of these layers.
structure Below (N C F : Type) where
  device : N → Device
  io : C → N → Bytes → Int → Nat → Bool → Except F (Int × Int × C)
  size : C → N → Int
  tryseek : C → N → Int → Except F (Int × C)
  truncate : C → N → Int → Except F (Int × C)
  fsync : C → N → Except F (Int × C)
  getdirentry : C → N → Int → Except F (Int × C)
  reclaim : C → N → Except F C

section Operations

variable {N C F : Type} [DecidableEq N]

def inLayer {α : Type} (value : Except Fault α) : Except (Panic F) α := value.mapError .assertion

def below {α : Type} (value : Except F α) : Except (Panic F) α := value.mapError .below

-- __vop_op.
def vopOp (v : Mounts N) (c : Counts N) (node : N) (op : Vop) : Except (Panic F) Unit := do
  check (op ∈ (v.kind node).inOps) (.missing op)
  inLayer (inodeCheck c node)

-- vop_read and vop_write, with the bytes moved.
def vopIo (v : Mounts N) (b : Below N C F) (c : Counts N) (data : C) (node : N) (buf : Bytes) (pos : Int) (len : Nat) (write : Bool) :
    Except (Panic F) (Int × Int × C) := do
  vopOp v c node (if write then .vopWrite else .vopRead)
  match v.kind node with
  | .device =>
      match (b.device node).dopIo pos len write with
      | some ret => return (ret, 0, data)
      | none => below (b.io data node buf pos len write)
  | _ => below (b.io data node buf pos len write)

-- vop_fstat, which never fails; the result is st_size.
def vopFstat (v : Mounts N) (b : Below N C F) (c : Counts N) (data : C) (node : N) : Except (Panic F) Int := do
  vopOp v c node .vopFstat
  return if v.kind node = .device then ((b.device node).dBlocks * (b.device node).dBlocksize : Nat) else b.size data node

def vopTryseek (v : Mounts N) (b : Below N C F) (c : Counts N) (data : C) (node : N) (pos : Int) : Except (Panic F) (Int × C) := do
  vopOp v c node .vopTryseek
  if v.kind node = .device then return ((b.device node).devTryseek pos, data) else below (b.tryseek data node pos)

-- The part of vop_reclaim and of vop_close that is below the counts, once these
-- have their values.
def reclaimData (v : Mounts N) (b : Below N C F) (c : Counts N) (data : C) (node : N) : Except (Panic F) C :=
  if c.refCount node = 0 ∧ v.kind node ≠ .device then below (b.reclaim data node) else .ok data

def closeData (v : Mounts N) (b : Below N C F) (c : Counts N) (data : C) (node : N) : Except (Panic F) C := do
  let (_, data) ← (if c.openCount node = 0 ∧ v.kind node ≠ .device then below (b.fsync data node) else .ok (0, data))
  reclaimData v b c data node

-- vfs_open from vop_open on.
def openNode (v : Mounts N) (b : Below N C F) (c : Counts N) (data : C) (node : N) (flags : BitVec 32) :
    Except (Panic F) (Counts N × C × Except Int N) := do
  let ret ← inLayer (vopOpen v c node flags ⟨0, .ok node, (b.device node).dopOpen flags, 0, .ok 0⟩)
  if ret ≠ 0 then do
    let c ← inLayer (refDec v c node)
    let data ← reclaimData v b c data node
    return (c, data, .error ret)
  else do
    let c := openInc c node
    if has flags oTrunc ∨ has flags oCreat then do
      vopOp v c node .vopTruncate
      let (ret, data) ← below (b.truncate data node 0)
      if ret ≠ 0 then do
        let c ← inLayer (vfsClose v c node)
        let data ← closeData v b c data node
        return (c, data, .error ret)
      else return (c, data, .ok node)
    else return (c, data, .ok node)

-- vfs_open; lookup is what the search in a directory finds.
def openPath (v : Mounts N) (b : Below N C F) (starts : Starts N) (c : Counts N) (data : C) (path : List Char) (flags : BitVec 32)
    (lookup : Except Int N) : Except (Panic F) (Counts N × C × Except Int N) :=
  if flags &&& oAccMode = oAccMode then .ok (c, data, .error eInval)
  else if has flags oTrunc ∧ flags &&& oAccMode = oRdOnly then .ok (c, data, .error eInval)
  else do
    let (c, found) ← inLayer (vfsLookup v starts c path ⟨0, lookup, 0, 0, .ok 0⟩)
    match found with
    | .error ret =>
        if ret = eNoEnt ∧ has flags oCreat then do
          let (c, dir) ← inLayer (getDevice v starts c (cutPath path))
          match dir with
          | .error ret => return (c, data, .error ret)
          | .ok _ => .error (.missing .vopCreate)
        else return (c, data, .error ret)
    | .ok node => if has flags oExcl ∧ has flags oCreat then return (c, data, .error eExists) else openNode v b c data node flags

def fdArrayAcquire (file : File N) : Except Fault (File N) := do
  check (file.status = .opened) .assertFailed
  return { file with openCount := file.openCount + 1 }

def fdArrayRelease (v : Mounts N) (c : Counts N) (file : File N) : Except Fault (Counts N × File N) := do
  check (file.status = .opened ∨ file.status = .closed) .assertFailed
  check (0 < file.openCount) .assertFailed
  let file := { file with openCount := file.openCount - 1 }
  if file.openCount = 0 then fdArrayFree v c file else return (c, file)

-- An operation on a null node fails the first assertion of __vop_op.
def nodeOf (file : File N) : Except Fault N :=
  match file.node with
  | some node => .ok node
  | none => .error .assertFailed

end Operations

-- The processes with their files and the counts of the inodes, over what is stored.
structure FileLayer (P N C : Type) where
  fs : FsState P N
  data : C

inductive LayerCall (P N : Type) where
  | openFile (proc : P) (path : List Char) (flags : BitVec 32) (copyPath : Int) (lookup : Except Int N)
  | read (proc : P) (fd : Int) (len : Nat)
  | write (proc : P) (fd : Int) (buf : Bytes) (len : Nat)
  | seek (proc : P) (fd pos whence : Int)
  | fstat (proc : P) (fd : Int)
  | fsync (proc : P) (fd : Int)
  | getdirentry (proc : P) (fd offset : Int)
  | dup (proc : P) (fd1 fd2 : Int)
  | close (proc : P) (fd : Int)

namespace FileLayer

variable {P N C F : Type} [DecidableEq P] [DecidableEq N]

def files (l : FileLayer P N C) (proc : P) : FilesStruct N := l.fs.filesp proc

def put (l : FileLayer P N C) (proc : P) (c : Counts N) (data : C) (index : Nat) (file : File N) : FileLayer P N C :=
  ⟨l.fs.setFiles proc c (setFile (l.files proc) index file), data⟩

def fileOpen (v : Mounts N) (b : Below N C F) (l : FileLayer P N C) (proc : P) (path : List Char) (flags : BitVec 32) (lookup : Except Int N) :
    Except (Panic F) (Int × FileLayer P N C) :=
  if flags &&& oAccMode = oAccMode then .ok (eInval, l)
  else do
    match ← inLayer (fdArrayAlloc (l.files proc) noFd) with
    | .error ret => return (ret, l)
    | .ok (index, file) => do
        let (c, data, found) ← openPath v b (l.fs.starts proc) l.fs.counts l.data path flags lookup
        match found with
        | .error ret => do
            let (c, file) ← inLayer (fdArrayFree v c file)
            return (ret, l.put proc c data index file)
        | .ok node => do
            let pos ← (if has flags oAppend then vopFstat v b c data node else .ok 0)
            let file ← inLayer (fdArrayOpen { file with
              pos := pos
              node := some node
              readable := flags &&& oAccMode ≠ oWrOnly
              writable := flags &&& oAccMode ≠ oRdOnly })
            return (index, l.put proc c data index file)

def sysfileOpen (v : Mounts N) (b : Below N C F) (l : FileLayer P N C) (proc : P) (path : List Char) (flags : BitVec 32) (copyPath : Int)
    (lookup : Except Int N) : Except (Panic F) (Int × FileLayer P N C) :=
  if copyPath ≠ 0 then .ok (copyPath, l) else l.fileOpen v b proc path flags lookup

-- The end of a call that has acquired its entry.
def release (v : Mounts N) (l : FileLayer P N C) (proc : P) (index : Nat) (file : File N) (data : C) (ret : Int) :
    Except (Panic F) (Int × FileLayer P N C) := do
  let (c, file) ← inLayer (fdArrayRelease v l.fs.counts file)
  return (ret, l.put proc c data index file)

-- file_read and file_write.
def fileIo (v : Mounts N) (b : Below N C F) (l : FileLayer P N C) (proc : P) (fd : Int) (buf : Bytes) (len : Nat) (write : Bool) :
    Except (Panic F) (Int × FileLayer P N C) := do
  match ← inLayer (fd2file (l.files proc) fd) with
  | .error ret => return (ret, l)
  | .ok (index, file) =>
      if ¬ (if write then file.writable else file.readable) then return (eInval, l)
      else do
        let file ← inLayer (fdArrayAcquire file)
        let node ← inLayer (nodeOf file)
        let (ret, moved, data) ← vopIo v b l.fs.counts l.data node buf file.pos len write
        l.release v proc index { file with pos := file.pos + moved } data ret

-- The position that file_seek asks for.
def seekTarget (v : Mounts N) (b : Below N C F) (l : FileLayer P N C) (file : File N) (node : N) (pos whence : Int) :
    Except (Panic F) (Except Int Int) :=
  if whence = lseekSet then .ok (.ok pos)
  else if whence = lseekCur then .ok (.ok (pos + file.pos))
  else if whence = lseekEnd then do
    let size ← vopFstat v b l.fs.counts l.data node
    return .ok (pos + size)
  else .ok (.error eInval)

def fileSeek (v : Mounts N) (b : Below N C F) (l : FileLayer P N C) (proc : P) (fd pos whence : Int) :
    Except (Panic F) (Int × FileLayer P N C) := do
  match ← inLayer (fd2file (l.files proc) fd) with
  | .error ret => return (ret, l)
  | .ok (index, file) => do
      let file ← inLayer (fdArrayAcquire file)
      let node ← inLayer (nodeOf file)
      match ← l.seekTarget v b file node pos whence with
      | .error ret => l.release v proc index file l.data ret
      | .ok pos => do
          let (ret, data) ← vopTryseek v b l.fs.counts l.data node pos
          l.release v proc index (if ret = 0 then { file with pos := pos } else file) data ret

def fileFstat (v : Mounts N) (b : Below N C F) (l : FileLayer P N C) (proc : P) (fd : Int) : Except (Panic F) (Int × FileLayer P N C) := do
  match ← inLayer (fd2file (l.files proc) fd) with
  | .error ret => return (ret, l)
  | .ok (index, file) => do
      let file ← inLayer (fdArrayAcquire file)
      let node ← inLayer (nodeOf file)
      let _ ← vopFstat v b l.fs.counts l.data node
      l.release v proc index file l.data 0

def fileFsync (v : Mounts N) (b : Below N C F) (l : FileLayer P N C) (proc : P) (fd : Int) : Except (Panic F) (Int × FileLayer P N C) := do
  match ← inLayer (fd2file (l.files proc) fd) with
  | .error ret => return (ret, l)
  | .ok (index, file) => do
      let file ← inLayer (fdArrayAcquire file)
      let node ← inLayer (nodeOf file)
      vopOp v l.fs.counts node .vopFsync
      let (ret, data) ← below (b.fsync l.data node)
      l.release v proc index file data ret

def fileGetdirentry (v : Mounts N) (b : Below N C F) (l : FileLayer P N C) (proc : P) (fd offset : Int) :
    Except (Panic F) (Int × FileLayer P N C) := do
  match ← inLayer (fd2file (l.files proc) fd) with
  | .error ret => return (ret, l)
  | .ok (index, file) => do
      let file ← inLayer (fdArrayAcquire file)
      let node ← inLayer (nodeOf file)
      vopOp v l.fs.counts node .vopGetdirentry
      let (ret, data) ← below (b.getdirentry l.data node offset)
      l.release v proc index file data ret

def fileDup (l : FileLayer P N C) (proc : P) (fd1 fd2 : Int) : Except (Panic F) (Int × FileLayer P N C) := do
  let (ret, fs) ← inLayer (l.fs.fileDup proc fd1 fd2)
  return (ret, ⟨fs, l.data⟩)

def fileClose (v : Mounts N) (b : Below N C F) (l : FileLayer P N C) (proc : P) (fd : Int) : Except (Panic F) (Int × FileLayer P N C) := do
  match ← inLayer (fd2file (l.files proc) fd) with
  | .error ret => return (ret, l)
  | .ok (index, file) => do
      let (c, closed) ← inLayer (fdArrayClose v l.fs.counts file)
      let node ← inLayer (nodeOf file)
      let data ← (if closed.status = .none then closeData v b c l.data node else .ok l.data)
      return (0, l.put proc c data index closed)

def call (v : Mounts N) (b : Below N C F) (l : FileLayer P N C) : LayerCall P N → Except (Panic F) (Int × FileLayer P N C)
  | .openFile proc path flags copyPath lookup => l.sysfileOpen v b proc path flags copyPath lookup
  | .read proc fd len => l.fileIo v b proc fd zeroBytes len false
  | .write proc fd buf len => l.fileIo v b proc fd buf len true
  | .seek proc fd pos whence => l.fileSeek v b proc fd pos whence
  | .fstat proc fd => l.fileFstat v b proc fd
  | .fsync proc fd => l.fileFsync v b proc fd
  | .getdirentry proc fd offset => l.fileGetdirentry v b proc fd offset
  | .dup proc fd1 fd2 => l.fileDup proc fd1 fd2
  | .close proc fd => l.fileClose v b proc fd

def step (v : Mounts N) (b : Below N C F) (l : FileLayer P N C) (event : LayerCall P N) : Option (FileLayer P N C) :=
  match l.call v b event with
  | .ok (_, next) => some next
  | .error _ => none

end FileLayer

end Ucore.Vfs
