import Ucore.Lib.Bytes
import Ucore.Sfs.Bitmap

set_option autoImplicit false

namespace Ucore.Sfs

open Ucore.Lib

def blkSize : Nat := 4096
def nDirect : Nat := 12
def blkNentry : Nat := blkSize / 4
def blkBits : Nat := blkSize * 8
def maxInfoLen : Nat := 31
def maxFileSize : Nat := 1024 * 1024 * 128
def blknSuper : Nat := 0
def blknRoot : Nat := 1
def blknFreemap : Nat := 2
def sfsMagic : Nat := 0x2f8dbe2a
def typeFile : Nat := 1
def typeDir : Nat := 2
def typeLink : Nat := 3

structure SfsSuper where
  magic : Nat
  blocks : Nat
  unusedBlocks : Nat
  info : Fin 32 → UInt8

structure SfsDiskInode where
  size : Nat
  type : Nat
  nlinks : Nat
  blocks : Nat
  direct : Fin 12 → Nat
  indirect : Nat

structure SfsInode where
  din : SfsDiskInode
  ino : Nat
  dirty : Bool

-- A block device with the results its driver has yet to return; when they are
-- used up every transfer inside the device succeeds, as disk0 does.
structure Device where
  dBlocks : Nat
  data : Nat → Bytes
  results : List Int

structure SfsFs where
  super : SfsSuper
  dev : Device
  freemap : Bitmap
  superDirty : Bool

def superSize : Nat := 44
def diskInodeSize : Nat := 64

-- The layout of the records on disk.
def encodeSuper (super : SfsSuper) : Bytes :=
  memcpy (memcpy (memcpy (memcpy zeroBytes 0 (toLe super.magic) 4) 4 (toLe super.blocks) 4) 8 (toLe super.unusedBlocks) 4) 12
    (fun i => if bound : i < 32 then super.info ⟨i, bound⟩ else 0) 32

def decodeSuper (bytes : Bytes) : SfsSuper :=
  ⟨getLe bytes 0 4, getLe bytes 4 4, getLe bytes 8 4, fun i => bytes (12 + i)⟩

def encodeInode (din : SfsDiskInode) : Bytes := fun i =>
  if i < 4 then toLe din.size i
  else if i < 6 then toLe din.type (i - 4)
  else if i < 8 then toLe din.nlinks (i - 6)
  else if i < 12 then toLe din.blocks (i - 8)
  else if bound : i < 60 then toLe (din.direct ⟨(i - 12) / 4, by omega⟩) ((i - 12) % 4)
  else toLe din.indirect (i - 60)

def decodeInode (bytes : Bytes) : SfsDiskInode :=
  ⟨getLe bytes 0 4, getLe bytes 4 2, getLe bytes 6 2, getLe bytes 8 4, fun i => getLe bytes (12 + 4 * i) 4, getLe bytes 60 4⟩

-- The bytes of the words of the freemap, and back.
def bitmapData (b : Bitmap) : Bytes := fun i => toLe (b.map (i / 4)).toNat (i % 4)

-- disk0_io for one block: the result code, the buffer and the device.
def dopIo (dev : Device) (buf : Bytes) (offset : Nat) (write : Bool) : Int × Bytes × Device :=
  let blkno := offset / blkSize
  if offset % blkSize ≠ 0 ∨ dev.dBlocks < blkno + 1 then (eInval, buf, dev)
  else
    match dev.results with
    | [] => (0, if write then buf else dev.data blkno, if write then { dev with data := Function.update dev.data blkno buf } else dev)
    | ret :: rest =>
        if ret = 0 then
          (0, if write then buf else dev.data blkno,
            { dev with data := if write then Function.update dev.data blkno buf else dev.data, results := rest })
        else (ret, buf, { dev with results := rest })

-- The byte offset of a block is computed in 32 bits.
def sfsRwblockNolock (sfs : SfsFs) (buf : Bytes) (blkno : Nat) (write checked : Bool) : Except Fault (Int × Bytes × SfsFs) := do
  check ((blkno ≠ 0 ∨ !checked) ∧ blkno < sfs.super.blocks) .assertFailed
  let (ret, buf, dev) := dopIo sfs.dev buf (blkno * blkSize % 2 ^ 32) write
  return (ret, buf, { sfs with dev := dev })

-- sfs_rwblock writing; the buffer moves on by one block each round.
def sfsWblock (sfs : SfsFs) (buf : Bytes) (blkno : Nat) : Nat → Except Fault (Int × SfsFs)
  | 0 => .ok (0, sfs)
  | nblks + 1 => do
      let (ret, _, sfs) ← sfsRwblockNolock sfs buf blkno true true
      if ret ≠ 0 then return (ret, sfs)
      else sfsWblock sfs (buf.from blkSize) (blkno + 1) nblks

def sfsRbuf (sfs : SfsFs) (buf : Bytes) (len blkno offset : Nat) : Except Fault (Int × Bytes × SfsFs) := do
  check (offset < blkSize ∧ offset + len ≤ blkSize) .assertFailed
  let (ret, sfsBuffer, sfs) ← sfsRwblockNolock sfs zeroBytes blkno false true
  return (ret, if ret = 0 then memcpy buf 0 (sfsBuffer.from offset) len else buf, sfs)

def sfsWbuf (sfs : SfsFs) (buf : Bytes) (len blkno offset : Nat) : Except Fault (Int × Bytes × SfsFs) := do
  check (offset < blkSize ∧ offset + len ≤ blkSize) .assertFailed
  let (ret, sfsBuffer, sfs) ← sfsRwblockNolock sfs zeroBytes blkno false true
  if ret ≠ 0 then return (ret, buf, sfs)
  else
    let (ret, _, sfs) ← sfsRwblockNolock sfs (memcpy sfsBuffer offset buf len) blkno true true
    return (ret, buf, sfs)

def sfsSyncSuper (sfs : SfsFs) : Except Fault (Int × SfsFs) := do
  let (ret, _, sfs) ← sfsRwblockNolock sfs (memcpy zeroBytes 0 (encodeSuper sfs.super) superSize) blknSuper true false
  return (ret, sfs)

def sfsFreemapBlocks (super : SfsSuper) : Nat := roundUpDiv super.blocks blkBits

def sfsSyncFreemap (sfs : SfsFs) : Except Fault (Int × SfsFs) :=
  sfsWblock sfs (bitmapData sfs.freemap) blknFreemap (sfsFreemapBlocks sfs.super)

def sfsClearBlock (sfs : SfsFs) (blkno : Nat) : Nat → Except Fault (Int × SfsFs)
  | 0 => .ok (0, sfs)
  | nblks + 1 => do
      let (ret, _, sfs) ← sfsRwblockNolock sfs zeroBytes blkno true true
      if ret ≠ 0 then return (ret, sfs)
      else sfsClearBlock sfs (blkno + 1) nblks

end Ucore.Sfs
