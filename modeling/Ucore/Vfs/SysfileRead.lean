import Ucore.Sfs.ReadExact
import Ucore.Vfs.FileLayer
import Ucore.Vmm.UserCheck

set_option autoImplicit false

namespace Ucore.Vfs

open Ucore.Lib
open Ucore.Vmm (Mm userMemCheck)

-- The file system on the disk with its inodes.
structure SfsData (N : Type) where
  sfs : Sfs.SfsFs
  inodes : N → Sfs.SfsInode

inductive ReadFault where
  | sfs (fault : Sfs.Fault)
  | vmm (fault : Vmm.Fault)
  | assertFailed
  | outOfFuel

def iobufSize : UInt64 := 4096

section Reads

variable {P N : Type} [DecidableEq P] [DecidableEq N]

-- A read of a device, which is not about files.
abbrev DeviceRead (N : Type) := SfsData N → N → Bytes → Int → Nat → Except ReadFault (Int × Nat × Bytes × SfsData N)

-- vop_read: the code, the bytes moved, and the buffer.
def vopRead (v : Mounts N) (dev : DeviceRead N) (c : Counts N) (data : SfsData N) (node : N) (buf : Bytes) (pos : Int) (len : Nat) :
    Except (Panic ReadFault) (Int × Nat × Bytes × SfsData N) := do
  vopOp v c node .vopRead
  match v.kind node with
  | .device => below (dev data node buf pos len)
  | _ => do
      let (ret, s) ← below ((Sfs.sfsIo data.sfs (data.inodes node) buf pos len false).mapError .sfs)
      return (ret, s.alen, s.buf, ⟨s.sfs, Function.update data.inodes node s.sin⟩)

namespace FileLayer

-- file_read, with the bytes that it leaves in buf.
def fileRead (v : Mounts N) (dev : DeviceRead N) (l : FileLayer P N (SfsData N)) (proc : P) (fd : Int) (buf : Bytes) (len : Nat) :
    Except (Panic ReadFault) (Int × Nat × Bytes × FileLayer P N (SfsData N)) := do
  match ← inLayer (fd2file (l.files proc) fd) with
  | .error ret => return (ret, 0, buf, l)
  | .ok (index, file) =>
      if ¬ file.readable then return (eInval, 0, buf, l)
      else do
        let file ← inLayer (fdArrayAcquire file)
        let node ← inLayer (nodeOf file)
        let (ret, copied, buf, data) ← vopRead v dev l.fs.counts l.data node buf file.pos len
        let file := if file.status = .opened then { file with pos := file.pos + copied } else file
        let (ret, l) ← l.release v proc index file data ret
        return (ret, copied, buf, l)

def fileTestfd (l : FileLayer P N (SfsData N)) (proc : P) (fd : Int) (readable writable : Bool) : Except (Panic ReadFault) Bool := do
  match ← inLayer (fd2file (l.files proc) fd) with
  | .error _ => return false
  | .ok (_, file) => return (!readable || file.readable) && (!writable || file.writable)

end FileLayer

def copyToUser (mm : Option Mm) (user : Bytes) (dst : UInt64) (src : Bytes) (len : UInt64) :
    Except (Panic ReadFault) (Bool × Option Mm × Bytes) := do
  let (allowed, mm) ← below ((userMemCheck mm dst len true).mapError .vmm)
  return if allowed then (true, mm, memcpy user dst.toNat src len.toNat) else (false, mm, user)

-- The memory of the process beside the file layer.
structure Reader (P N : Type) where
  layer : FileLayer P N (SfsData N)
  mm : Option Mm
  user : Bytes

namespace Reader

-- The loop of sysfile_read. Its fuel is one round for each full buffer and two more.
def readLoop (v : Mounts N) (dev : DeviceRead N) (proc : P) (fd : Int) (buffer : Bytes) (ret : Int) (copied : Nat) (base len : UInt64)
    (r : Reader P N) : Nat → Except (Panic ReadFault) (Int × Nat × Reader P N)
  | 0 => .error (.below .outOfFuel)
  | fuel + 1 =>
      if len = 0 then .ok (ret, copied, r)
      else do
        let alen := if iobufSize > len then len else iobufSize
        let (ret, moved, buffer, layer) ← r.layer.fileRead v dev proc fd buffer alen.toNat
        let alen := UInt64.ofNat moved
        let r := { r with layer := layer }
        if alen ≠ 0 then do
          let (done, mm, user) ← copyToUser r.mm r.user base buffer alen
          let r := { r with mm := mm, user := user }
          if done then do
            check (alen ≤ len) (.below .assertFailed)
            if ret ≠ 0 then return (ret, copied + moved, r)
            else readLoop v dev proc fd buffer ret (copied + moved) (base + alen) (len - alen) r fuel
          else return (if ret = 0 then eInval else ret, copied, r)
        else return (ret, copied, r)

-- sysfile_read; buffer is what kmalloc returns.
def sysfileRead (v : Mounts N) (dev : DeviceRead N) (r : Reader P N) (proc : P) (fd : Int) (base len : UInt64) (buffer : Option Bytes) :
    Except (Panic ReadFault) (Int × Reader P N) := do
  if len = 0 then return (0, r)
  else if ¬ (← r.layer.fileTestfd proc fd true false) then return (eInval, r)
  else
    match buffer with
    | none => return (eNoMem, r)
    | some buffer => do
        let (ret, copied, r) ← readLoop v dev proc fd buffer 0 0 base len r (len.toNat / iobufSize.toNat + 2)
        return (if copied ≠ 0 then ((copied : Int).bmod (2 ^ 32), r) else (ret, r))

end Reader

end Reads

end Ucore.Vfs
