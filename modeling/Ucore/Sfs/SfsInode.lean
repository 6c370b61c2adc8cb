import Ucore.Sfs.SfsIo

set_option autoImplicit false

namespace Ucore.Sfs

open Ucore.Lib

def sfsBlockInuse (sfs : SfsFs) (ino : Nat) : Except Fault Bool := do
  check (ino ≠ 0 ∧ ino < sfs.super.blocks) .assertFailed
  let free ← bitmapTest sfs.freemap ino
  return !free

def sfsBlockAlloc (sfs : SfsFs) : Except Fault (Int × Nat × SfsFs) := do
  let (ret, ino, freemap) ← bitmapAlloc sfs.freemap
  if ret ≠ 0 then return (ret, ino, sfs)
  else
    check (0 < sfs.super.unusedBlocks) .assertFailed
    let sfs := { sfs with
      freemap := freemap
      super := { sfs.super with unusedBlocks := sfs.super.unusedBlocks - 1 }
      superDirty := true }
    check (← sfsBlockInuse sfs ino) .assertFailed
    let (ret, sfs) ← sfsClearBlock sfs ino 1
    return (ret, ino, sfs)

def sfsBlockFree (sfs : SfsFs) (ino : Nat) : Except Fault SfsFs := do
  check (← sfsBlockInuse sfs ino) .assertFailed
  let freemap ← bitmapFree sfs.freemap ino
  return { sfs with
    freemap := freemap
    super := { sfs.super with unusedBlocks := sfs.super.unusedBlocks + 1 }
    superDirty := true }

-- From the second sfs_block_alloc of sfs_bmap_get_sub_nolock on: the entry block
-- ent is there, entp is what the inode holds. The result is the code, the new
-- entry pointer, the block and the file system.
def bmapGetSubCreate (sfs : SfsFs) (entp ent index : Nat) : Except Fault (Int × Nat × Nat × SfsFs) := do
  let (ret, ino, sfs) ← sfsBlockAlloc sfs
  if ret ≠ 0 then
    let sfs ← if ent ≠ entp then sfsBlockFree sfs ent else .ok sfs
    return (ret, entp, 0, sfs)
  else
    let (ret, _, sfs) ← sfsWbuf sfs (toLe ino) 4 ent (index * 4)
    if ret ≠ 0 then
      let sfs ← sfsBlockFree sfs ino
      let sfs ← if ent ≠ entp then sfsBlockFree sfs ent else .ok sfs
      return (ret, entp, 0, sfs)
    else return (0, ent, ino, sfs)

def sfsBmapGetSubNolock (sfs : SfsFs) (entp index : Nat) (create : Bool) : Except Fault (Int × Nat × Nat × SfsFs) := do
  check (index < blkNentry) .assertFailed
  if entp ≠ 0 then
    let (ret, entry, sfs) ← sfsRbuf sfs zeroBytes 4 entp (index * 4)
    if ret ≠ 0 then return (ret, entp, 0, sfs)
    else if getLe entry 0 4 ≠ 0 ∨ !create then return (0, entp, getLe entry 0 4, sfs)
    else bmapGetSubCreate sfs entp entp index
  else if !create then return (0, entp, 0, sfs)
  else
    let (ret, ent, sfs) ← sfsBlockAlloc sfs
    if ret ≠ 0 then return (ret, entp, 0, sfs)
    else bmapGetSubCreate sfs entp ent index

def bmapCheckOut (sfs : SfsFs) (ino : Nat) : Except Fault Unit :=
  if ino = 0 then .ok () else do check (← sfsBlockInuse sfs ino) .assertFailed

def sfsBmapGetNolock (sfs : SfsFs) (sin : SfsInode) (index : Nat) (create : Bool) :
    Except Fault (Int × Nat × SfsFs × SfsInode) := do
  if bound : index < 12 then
    let ino := sin.din.direct ⟨index, bound⟩
    if ino = 0 ∧ create then
      let (ret, ino, sfs) ← sfsBlockAlloc sfs
      if ret ≠ 0 then return (ret, 0, sfs, sin)
      else
        bmapCheckOut sfs ino
        return (0, ino, sfs,
          { sin with din := { sin.din with direct := Function.update sin.din.direct ⟨index, bound⟩ ino }, dirty := true })
    else
      bmapCheckOut sfs ino
      return (0, ino, sfs, sin)
  else if index - nDirect < blkNentry then
    let (ret, ent, ino, sfs) ← sfsBmapGetSubNolock sfs sin.din.indirect (index - nDirect) create
    if ret ≠ 0 then return (ret, 0, sfs, sin)
    else if ent ≠ sin.din.indirect then
      check (sin.din.indirect = 0) .assertFailed
      bmapCheckOut sfs ino
      return (0, ino, sfs, { sin with din := { sin.din with indirect := ent }, dirty := true })
    else
      bmapCheckOut sfs ino
      return (0, ino, sfs, sin)
  else .error .indexOutOfRange

def sfsBmapFreeSubNolock (sfs : SfsFs) (ent index : Nat) : Except Fault (Int × SfsFs) := do
  check ((← sfsBlockInuse sfs ent) ∧ index < blkNentry) .assertFailed
  let (ret, entry, sfs) ← sfsRbuf sfs zeroBytes 4 ent (index * 4)
  if ret ≠ 0 then return (ret, sfs)
  else if getLe entry 0 4 ≠ 0 then
    let (ret, _, sfs) ← sfsWbuf sfs (toLe 0) 4 ent (index * 4)
    if ret ≠ 0 then return (ret, sfs)
    else
      let sfs ← sfsBlockFree sfs (getLe entry 0 4)
      return (0, sfs)
  else return (0, sfs)

def sfsBmapFreeNolock (sfs : SfsFs) (sin : SfsInode) (index : Nat) : Except Fault (Int × SfsFs × SfsInode) := do
  if bound : index < 12 then
    let ino := sin.din.direct ⟨index, bound⟩
    if ino ≠ 0 then
      let sfs ← sfsBlockFree sfs ino
      return (0, sfs,
        { sin with din := { sin.din with direct := Function.update sin.din.direct ⟨index, bound⟩ 0 }, dirty := true })
    else return (0, sfs, sin)
  else if index - nDirect < blkNentry ∧ sin.din.indirect ≠ 0 then
    let (ret, sfs) ← sfsBmapFreeSubNolock sfs sin.din.indirect (index - nDirect)
    return (ret, sfs, sin)
  else return (0, sfs, sin)

-- The count of blocks grows here, and the dirty flag is left as it is.
def sfsBmapLoadNolock (sfs : SfsFs) (sin : SfsInode) (index : Nat) : Except Fault (Int × Nat × SfsFs × SfsInode) := do
  check (index ≤ sin.din.blocks) .indexPastBlocks
  let create := decide (index = sin.din.blocks)
  let (ret, ino, sfs, sin) ← sfsBmapGetNolock sfs sin index create
  if ret ≠ 0 then return (ret, ino, sfs, sin)
  else
    check (← sfsBlockInuse sfs ino) .assertFailed
    return (0, ino, sfs, if create then { sin with din := { sin.din with blocks := sin.din.blocks + 1 } } else sin)

def sfsBmapTruncateNolock (sfs : SfsFs) (sin : SfsInode) : Except Fault (Int × SfsFs × SfsInode) := do
  check (sin.din.blocks ≠ 0) .assertFailed
  let (ret, sfs, sin) ← sfsBmapFreeNolock sfs sin (sin.din.blocks - 1)
  if ret ≠ 0 then return (ret, sfs, sin)
  else return (0, sfs, { sin with din := { sin.din with blocks := sin.din.blocks - 1 }, dirty := true })

-- What the copy loop of sfs_io_nolock carries: the caller's buffer, the bytes
-- done so far, the file system and the inode.
structure IoState where
  buf : Bytes
  alen : Nat
  sfs : SfsFs
  sin : SfsInode

-- The test against the size cannot go below zero bytes by more than a block, so
-- the cast of the source to int does not change its sign.
def chunkSize (sin : SfsInode) (cur endpos : Nat) (write : Bool) : Nat :=
  let size := if endpos < cur + (blkSize - cur % blkSize) then endpos - cur else blkSize - cur % blkSize
  if !write ∧ sin.din.size < cur + size then sin.din.size - cur else size

def sfsBufOp (write : Bool) (sfs : SfsFs) (buf : Bytes) (len blkno offset : Nat) : Except Fault (Int × Bytes × SfsFs) :=
  if write then sfsWbuf sfs buf len blkno offset else sfsRbuf sfs buf len blkno offset

-- One round of the loop: the transfer of size bytes at cur.
def ioRound (write : Bool) (s : IoState) (cur size : Nat) : Except Fault (Int × IoState) := do
  let (ret, ino, sfs, sin) ← sfsBmapLoadNolock s.sfs s.sin (cur / blkSize)
  if ret ≠ 0 then return (ret, { s with sfs := sfs, sin := sin })
  else
    let (ret, chunk, sfs) ← sfsBufOp write sfs (s.buf.from s.alen) size ino (cur % blkSize)
    if ret ≠ 0 then return (ret, { s with sfs := sfs, sin := sin })
    else return (0, ⟨memcpy s.buf s.alen chunk size, s.alen + size, sfs, sin⟩)

def ioLoop (write : Bool) (endpos : Nat) (s : IoState) (cur : Nat) : Nat → Except Fault (Int × IoState)
  | 0 => .error .outOfFuel
  | fuel + 1 =>
      if cur < endpos then
        let size := chunkSize s.sin cur endpos write
        if !write ∧ size = 0 then .ok (0, s)
        else do
          let (ret, next) ← ioRound write s cur size
          if ret ≠ 0 then return (ret, next)
          else ioLoop write endpos next (cur + size) fuel
      else .ok (0, s)

def toOff (n : Int) : Int := Int.bmod n (2 ^ 64)

def sfsIoNolock (sfs : SfsFs) (sin : SfsInode) (buf : Bytes) (offset : Int) (alen : Nat) (write : Bool) :
    Except Fault (Int × IoState) := do
  check (sin.din.type ≠ typeDir) .assertFailed
  let endpos := toOff (offset + alen)
  let nothing : IoState := ⟨buf, 0, sfs, sin⟩
  if offset < 0 ∨ (maxFileSize : Int) ≤ offset ∨ endpos < offset then return (eInval, nothing)
  else if offset = endpos then return (0, nothing)
  else
    let endpos := min endpos maxFileSize
    if !write ∧ (sin.din.size : Int) ≤ offset then return (0, nothing)
    else
      let endpos := if !write then min endpos sin.din.size else endpos
      ioLoop write endpos.toNat nothing offset.toNat (endpos.toNat - offset.toNat + 1)

-- sfs_io: iobuf_skip asserts that the buffer had room for what was moved.
def sfsIo (sfs : SfsFs) (sin : SfsInode) (buf : Bytes) (offset : Int) (resid : Nat) (write : Bool) : Except Fault (Int × IoState) := do
  let (ret, s) ← sfsIoNolock sfs sin buf offset resid write
  check (s.alen ≤ resid) .assertFailed
  return (ret, s)

-- The two loops of sfs_truncfile, over the number of rounds left.
def growLoop (sfs : SfsFs) (sin : SfsInode) (nblks : Nat) : Nat → Except Fault (Int × SfsFs × SfsInode)
  | 0 => .ok (0, sfs, sin)
  | rounds + 1 => do
      let (ret, _, sfs, sin) ← sfsBmapLoadNolock sfs sin nblks
      if ret ≠ 0 then return (ret, sfs, sin)
      else growLoop sfs sin (nblks + 1) rounds

def shrinkLoop (sfs : SfsFs) (sin : SfsInode) : Nat → Except Fault (Int × SfsFs × SfsInode)
  | 0 => .ok (0, sfs, sin)
  | rounds + 1 => do
      let (ret, sfs, sin) ← sfsBmapTruncateNolock sfs sin
      if ret ≠ 0 then return (ret, sfs, sin)
      else shrinkLoop sfs sin rounds

def sfsTruncfile (sfs : SfsFs) (sin : SfsInode) (len : Int) : Except Fault (Int × SfsFs × SfsInode) := do
  if len < 0 ∨ (maxFileSize : Int) < len then return (eInval, sfs, sin)
  else
    let tblks := roundUpDiv len.toNat blkSize
    if (sin.din.size : Int) = len then
      check (tblks = sin.din.blocks) .assertFailed
      return (0, sfs, sin)
    else
      let (ret, sfs, sin) ←
        if sin.din.blocks < tblks then growLoop sfs sin sin.din.blocks (tblks - sin.din.blocks)
        else shrinkLoop sfs sin (sin.din.blocks - tblks)
      if ret ≠ 0 then return (ret, sfs, sin)
      else
        check (sin.din.blocks = tblks) .assertFailed
        return (0, sfs, { sin with din := { sin.din with size := len.toNat }, dirty := true })

def sfsTryseek (sfs : SfsFs) (sin : SfsInode) (pos : Int) : Except Fault (Int × SfsFs × SfsInode) :=
  if pos < 0 ∨ (maxFileSize : Int) ≤ pos then .ok (eInval, sfs, sin)
  else if (sin.din.size : Int) < pos then sfsTruncfile sfs sin pos
  else .ok (0, sfs, sin)

def sfsFsync (sfs : SfsFs) (sin : SfsInode) : Except Fault (Int × SfsFs × SfsInode) :=
  if sin.dirty then do
    let (ret, _, sfs) ← sfsWbuf sfs (encodeInode sin.din) diskInodeSize sin.ino 0
    return (ret, sfs, { sin with dirty := decide (ret ≠ 0) })
  else .ok (0, sfs, sin)

end Ucore.Sfs
