import Ucore.Sfs.Volume

set_option autoImplicit false

namespace Ucore.Sfs

open Ucore.Lib

variable {n : Nat}

def bitmapOfData (b : Bitmap) (data : Bytes) : Bitmap := { b with map := fun w => BitVec.ofNat 32 (getLe data (4 * w) 4) }

def sfsFreemapBits (super : SfsSuper) : Nat := roundUpDiv super.blocks blkBits * blkBits % 2 ^ 32

def sfsInitRead (dev : Device) (blkno : Nat) (buf : Bytes) : Int × Bytes × Device :=
  dopIo dev buf (blkno * blkSize % 2 ^ 32) false

-- The loop of sfs_init_freemap; data moves on by one block each round.
def sfsInitFreemap (dev : Device) (bytes : Bytes) (data blkno : Nat) : Nat → Int × Bytes × Device
  | 0 => (0, bytes, dev)
  | nblks + 1 =>
      let (ret, block, dev) := sfsInitRead dev blkno (bytes.from data)
      if ret ≠ 0 then (ret, bytes, dev)
      else sfsInitFreemap dev (memcpy bytes data block blkSize) (data + blkSize) (blkno + 1) nblks

-- The loop of sfs_do_mount that counts the free bits from bit i on.
def countUnused (freemap : Bitmap) (i unused : Nat) : Nat → Except Fault Nat
  | 0 => .ok unused
  | rounds + 1 => do
      let free ← bitmapTest freemap i
      countUnused freemap (i + 1) (if free then unused + 1 else unused) rounds

-- Memory is there for all that is allocated, and the device has blocks of
-- SFS_BLKSIZE bytes.
def sfsDoMount (dev : Device) : Except Fault (Int × Device × Option SfsFs) := do
  let (ret, sfsBuffer, dev) := sfsInitRead dev blknSuper zeroBytes
  if ret ≠ 0 then return (ret, dev, none)
  else
    let super := decodeSuper sfsBuffer
    if super.magic ≠ sfsMagic ∨ dev.dBlocks < super.blocks then return (eInval, dev, none)
    else
      let super := { super with info := Function.update super.info ⟨maxInfoLen, by decide⟩ 0 }
      let freemap ← bitmapCreate (sfsFreemapBits super)
      check (freemap.nwords * 4 = sfsFreemapBlocks super * blkSize) .assertFailed
      let (ret, data, dev) := sfsInitFreemap dev (bitmapData freemap) 0 blknFreemap (sfsFreemapBlocks super)
      if ret ≠ 0 then return (ret, dev, none)
      else
        let freemap := bitmapOfData freemap data
        let unused ← countUnused freemap 0 0 (sfsFreemapBits super)
        check (unused = super.unusedBlocks) .assertFailed
        return (0, dev, some ⟨super, dev, freemap, false⟩)

-- sfs_load_inode where the inode is not in memory yet.
def sfsLoadInode (sfs : SfsFs) (ino : Nat) : Except Fault (Int × Option SfsInode × SfsFs) := do
  check (← sfsBlockInuse sfs ino) .assertFailed
  let (ret, bytes, sfs) ← sfsRbuf sfs zeroBytes diskInodeSize ino 0
  if ret ≠ 0 then return (ret, none, sfs)
  else
    let din := decodeInode bytes
    check (din.nlinks ≠ 0) .assertFailed
    check (din.type = typeDir ∨ din.type = typeFile) .unknownType
    return (0, some ⟨din, ino, false⟩, sfs)

def Volume.fsync (v : Volume n) (file : Fin n) : Except Fault (Int × Volume n) := do
  let (ret, sfs, sin) ← sfsFsync v.sfs (v.files file)
  return (ret, ⟨sfs, Function.update v.files file sin⟩)

-- The walk of sfs_sync over the inodes, which drops their results.
def Volume.fsyncAll (v : Volume n) : List (Fin n) → Except Fault (Volume n)
  | [] => .ok v
  | file :: rest => do
      let (_, v) ← v.fsync file
      v.fsyncAll rest

def Volume.sync (v : Volume n) : Except Fault (Int × Volume n) := do
  let v ← v.fsyncAll (List.finRange n)
  if v.sfs.superDirty then
    let (ret, sfs) ← sfsSyncSuper { v.sfs with superDirty := false }
    if ret ≠ 0 then return (ret, ⟨{ sfs with superDirty := true }, v.files⟩)
    else
      let (ret, sfs) ← sfsSyncFreemap sfs
      if ret ≠ 0 then return (ret, ⟨{ sfs with superDirty := true }, v.files⟩)
      else return (0, ⟨sfs, v.files⟩)
  else return (0, v)

inductive FsEvent (n : Nat) where
  | call (file : Fin n) (call : FileCall)
  | fsync (file : Fin n)
  | sync

def Volume.fsStep (v : Volume n) : FsEvent n → Option (Volume n)
  | .call file call => v.step (file, call)
  | .fsync file => (v.fsync file).toOption.map Prod.snd
  | .sync => v.sync.toOption.map Prod.snd

end Ucore.Sfs
