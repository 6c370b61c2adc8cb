import Ucore.Sfs.SfsIo

set_option autoImplicit false

namespace Ucore.Mksfs

open Ucore.Lib
open Ucore.Sfs (blkSize blkBits blknSuper blknRoot blknFreemap nDirect blkNentry maxFileSize maxInfoLen typeDir typeFile typeLink
  SfsSuper SfsDiskInode encodeSuper encodeInode superSize bitmapData sfsMagic roundUpDiv)

-- bug ends the program with a message; assertFailed is an assert.
inductive Fault where
  | bug
  | assertFailed
deriving DecidableEq, Repr

def maxNblks : Nat := 1024 * 512
def maxFnameLen : Nat := 255
def hashListSize : Nat := 1024
def l0Nblks : Nat := nDirect
def l1Nblks : Nat := blkNentry + l0Nblks
def l2Nblks : Nat := blkNentry * blkNentry + l1Nblks
def lnNblks : Nat := maxFileSize / blkSize

-- hash32; hash64 is the same of the low 32 bits.
def hash32 (val : Nat) : Nat := val % 2 ^ 32 * 0x9e370001 % 2 ^ 32 / 2 ^ 22

-- struct cache_inode. Its inode has the fields that the kernel knows and
-- db_indirect; l1 and l2 are the numbers of the cache blocks.
structure CacheInode where
  real : Nat
  din : SfsDiskInode
  dbIndirect : Nat
  nblks : Nat
  l1 : Option Nat
  l2 : Option Nat

-- What a call of sfs_alloc_ino is for.
inductive AllocUse where
  | inode
  | entry
  | data
  | indirect
deriving DecidableEq, Repr

-- inodeList and blockList have what is in the hash lists, the last one first;
-- inodeAt and cacheAt are the structures of a number. entry is the static buffer
-- of add_entry, disk the image file. magic and blocks of the super block are set
-- once, to SFS_MAGIC and ninos.
structure MksfsFs where
  unusedBlocks : Nat
  info : Fin 32 → UInt8
  ninos : Nat
  nextIno : Nat
  inodeList : List Nat
  blockList : List Nat
  inodeAt : Nat → CacheInode
  cacheAt : Nat → Bytes
  entry : Bytes
  disk : Nat → Bytes
  allocs : List (Nat × AllocUse)

def MksfsFs.super (fs : MksfsFs) : SfsSuper := ⟨sfsMagic, fs.ninos, fs.unusedBlocks, fs.info⟩

def dec32 (value : Nat) : Nat := (value + (2 ^ 32 - 1)) % 2 ^ 32

def sfsAllocIno (fs : MksfsFs) (use : AllocUse) : Except Fault (Nat × MksfsFs) :=
  if fs.nextIno < fs.ninos then
    .ok (fs.nextIno,
      { fs with
        unusedBlocks := dec32 fs.unusedBlocks
        nextIno := fs.nextIno + 1
        allocs := (fs.nextIno, use) :: fs.allocs })
  else .error .bug

-- Its callers pass the number 0; all cache blocks get into the list of that.
def allocCacheBlock (fs : MksfsFs) : Except Fault (Nat × MksfsFs) := do
  let (ino, fs) ← sfsAllocIno fs .indirect
  return (ino, { fs with blockList := ino :: fs.blockList, cacheAt := Function.update fs.cacheAt ino zeroBytes })

def searchCacheBlock (fs : MksfsFs) (ino : Nat) : Option Nat :=
  if hash32 ino = hash32 0 then fs.blockList.find? fun cb => cb = ino else none

def allocCacheInode (fs : MksfsFs) (real ino type : Nat) : Except Fault (Nat × MksfsFs) := do
  let (ino, fs) ← (if ino ≠ 0 then .ok (ino, fs) else sfsAllocIno fs .inode)
  let inode := ⟨real, ⟨0, type, 0, 0, fun _ => 0, 0⟩, 0, 0, none, none⟩
  return (ino, { fs with inodeList := ino :: fs.inodeList, inodeAt := Function.update fs.inodeAt ino inode })

def searchCacheInode (fs : MksfsFs) (real : Nat) : Option Nat := fs.inodeList.find? fun ino => (fs.inodeAt ino).real = real

-- stSize is the size of the image file; garbage is what malloc leaves in info
-- past the text.
def createSfs (stSize : Nat) (garbage : Bytes) (disk : Nat → Bytes) : Except Fault MksfsFs := do
  let ninos := min (stSize / blkSize % 2 ^ 32) maxNblks
  let nextIno := blknFreemap + roundUpDiv ninos blkBits
  check (nextIno < ninos) .bug
  let text := "simple file system".toUTF8.toList
  let info : Fin 32 → UInt8 := fun i => if h : (i : Nat) < text.length then text.get ⟨i, h⟩ else if i = text.length then 0 else garbage i
  let inode : CacheInode := ⟨0, ⟨0, 0, 0, 0, fun _ => 0, 0⟩, 0, 0, none, none⟩
  let fs : MksfsFs := ⟨ninos - nextIno, info, ninos, nextIno, [], [], fun _ => inode, fun _ => zeroBytes, zeroBytes, disk, []⟩
  let (_, fs) ← allocCacheInode fs 0 blknRoot typeDir
  return fs

-- The rest of the block is zero.
def writeBlock (fs : MksfsFs) (data : Bytes) (len ino : Nat) : Except Fault MksfsFs := do
  check (len ≤ blkSize ∧ ino < fs.ninos) .assertFailed
  return { fs with disk := Function.update fs.disk ino (memcpy zeroBytes 0 data len) }

-- The result is the new *cbp and *inop.
def updateCache (fs : MksfsFs) (cb : Option Nat) (ino : Nat) : Except Fault (Nat × MksfsFs) :=
  if ino = 0 then allocCacheBlock fs
  else if cb = some ino then .ok (ino, fs)
  else
    match searchCacheBlock fs ino with
    | some cb => .ok (cb, fs)
    | none => .error .assertFailed

def setCache (fs : MksfsFs) (cb index ino : Nat) : MksfsFs :=
  { fs with cacheAt := Function.update fs.cacheAt cb (memcpy (fs.cacheAt cb) (4 * index) (toLe ino) 4) }

def setInode (fs : MksfsFs) (file : Nat) (inode : CacheInode) : MksfsFs := { fs with inodeAt := Function.update fs.inodeAt file inode }

-- The branches of append_block that put ino at place nblks of the inode.
def mapBlock (fs : MksfsFs) (file nblks ino : Nat) : Except Fault MksfsFs := do
  let inode := fs.inodeAt file
  if bound : nblks < 12 then
    return setInode fs file { inode with din := { inode.din with direct := Function.update inode.din.direct ⟨nblks, bound⟩ ino } }
  else if nblks < l1Nblks then
    let (l1, fs) ← updateCache fs inode.l1 inode.din.indirect
    let fs := setInode fs file { inode with l1 := some l1, din := { inode.din with indirect := l1 } }
    return setCache fs l1 (nblks - l0Nblks) ino
  else if nblks < l2Nblks then
    let nblks := nblks - l1Nblks
    let (l2, fs) ← updateCache fs inode.l2 inode.dbIndirect
    let (l1, fs) ← updateCache fs inode.l1 (getLe (fs.cacheAt l2) (4 * (nblks / blkNentry)) 4)
    let fs := setCache fs l2 (nblks / blkNentry) l1
    let fs := setInode fs file { inode with l1 := some l1, l2 := some l2, dbIndirect := l2 }
    return setCache fs l1 (nblks % blkNentry) ino
  else return fs

def appendBlock (fs : MksfsFs) (file size ino : Nat) : Except Fault MksfsFs := do
  check (size ≤ blkSize) .assertFailed
  let nblks := (fs.inodeAt file).nblks
  check (nblks < lnNblks) .bug
  let fs ← mapBlock fs file nblks ino
  let inode := fs.inodeAt file
  let din := { inode.din with size := (inode.din.size + size) % 2 ^ 32, blocks := (inode.din.blocks + 1) % 2 ^ 32 }
  return setInode fs file { inode with nblks := inode.nblks + 1, din := din }

abbrev Name := List UInt8

-- A name with its terminating zero. The writes take sizeof(entry->name) bytes from
-- the begin of the entry, where its number is.
def nameBytes (name : Name) : Bytes := fun i => name.getD i 0

def entryNameSize : Nat := maxFnameLen + 1

def addEntry (fs : MksfsFs) (current file : Nat) (name : Name) : Except Fault MksfsFs := do
  check ((fs.inodeAt current).din.type = typeDir ∧ name.length ≤ maxFnameLen) .assertFailed
  let fs := { fs with entry := memcpy (memcpy fs.entry 0 (toLe file) 4) 4 (nameBytes name) (name.length + 1) }
  let (entryIno, fs) ← sfsAllocIno fs .entry
  let fs ← writeBlock fs fs.entry entryNameSize entryIno
  let fs ← appendBlock fs current entryNameSize entryIno
  let inode := fs.inodeAt file
  return setInode fs file { inode with din := { inode.din with nlinks := (inode.din.nlinks + 1) % 2 ^ 16 } }

structure HostFile where
  size : Nat
  data : Bytes

-- The entries of a directory of the host in the order of readdir, with the inode
-- numbers of the host; other stands for pipes, sockets and devices.
inductive HostDir where
  | nil
  | dir (name : Name) (real : Nat) (inner rest : HostDir)
  | file (name : Name) (real : Nat) (content : HostFile) (rest : HostDir)
  | link (name : Name) (real : Nat) (target : HostFile) (rest : HostDir)
  | other (name : Name) (rest : HostDir)

-- The loop of open_file; each round reads one block or what is left.
def openFileLoop (fs : MksfsFs) (file : Nat) (content : HostFile) (offset last : Nat) : Nat → Except Fault MksfsFs
  | 0 => .ok fs
  | rounds + 1 => do
      let ret := min blkSize (content.size - offset)
      check (last = blkSize) .assertFailed
      let (ino, fs) ← sfsAllocIno fs .data
      let fs ← writeBlock fs (content.data.from offset) ret ino
      let fs ← appendBlock fs file ret ino
      openFileLoop fs file content (offset + ret) ret rounds

def openFile (fs : MksfsFs) (file : Nat) (content : HostFile) : Except Fault MksfsFs :=
  openFileLoop fs file content 0 blkSize (roundUpDiv content.size blkSize)

def openLink (fs : MksfsFs) (file : Nat) (target : HostFile) : Except Fault MksfsFs := do
  let (ino, fs) ← sfsAllocIno fs .data
  let ret := min target.size blkSize
  check (ret ≠ blkSize) .bug
  let fs ← writeBlock fs target.data ret ino
  appendBlock fs file ret ino

def addFile (fs : MksfsFs) (current : Nat) (name : Name) (real : Nat) (content : HostFile) : Except Fault MksfsFs := do
  match searchCacheInode fs real with
  | some file => addEntry fs current file name
  | none =>
      let (file, fs) ← allocCacheInode fs real 0 typeFile
      let fs ← openFile fs file content
      addEntry fs current file name

def addLink (fs : MksfsFs) (current : Nat) (name : Name) (real : Nat) (target : HostFile) : Except Fault MksfsFs := do
  let (file, fs) ← allocCacheInode fs real 0 typeLink
  let fs ← openLink fs file target
  addEntry fs current file name

def hidden (name : Name) : Bool := name.head? = some 46

def addDots (fs : MksfsFs) (current parent : Nat) : Except Fault MksfsFs := do
  let fs ← addEntry fs current current [46]
  addEntry fs current parent [46, 46]

-- The loop of open_dir, with open_dir of the directories inside.
def openDirLoop (current : Nat) : HostDir → MksfsFs → Except Fault MksfsFs
  | .nil, fs => .ok fs
  | .dir name real inner rest, fs =>
      if hidden name then openDirLoop current rest fs
      else do
        check (name.length ≤ maxFnameLen) .bug
        check (searchCacheInode fs real = none) .assertFailed
        let (ino, fs) ← allocCacheInode fs real 0 typeDir
        let fs ← addDots fs ino current
        let fs ← openDirLoop ino inner fs
        let fs ← addEntry fs current ino name
        openDirLoop current rest fs
  | .file name real content rest, fs =>
      if hidden name then openDirLoop current rest fs
      else do
        check (name.length ≤ maxFnameLen) .bug
        let fs ← addFile fs current name real content
        openDirLoop current rest fs
  | .link name real target rest, fs =>
      if hidden name then openDirLoop current rest fs
      else do
        check (name.length ≤ maxFnameLen) .bug
        let fs ← addLink fs current name real target
        openDirLoop current rest fs
  | .other name rest, fs =>
      if hidden name then openDirLoop current rest fs
      else do
        check (name.length ≤ maxFnameLen) .bug
        openDirLoop current rest fs

def setBits (data : Nat → BitVec 32) (j : Nat) : Nat → Nat → BitVec 32
  | 0 => data
  | count + 1 => setBits (Function.update data (j / 32) (data (j / 32) ||| 1#32 <<< (j % 32))) (j + 1) count

-- The buffer of the loop of close_sfs at bit i.
def freemapBuffer (ninos nextIno i : Nat) : Nat → BitVec 32 :=
  if nextIno < i + blkBits then
    let start := if i < nextIno then nextIno - i else 0
    let stop := if ninos < i + blkBits then ninos - i else blkBits
    setBits (fun _ => 0) start (stop - start)
  else fun _ => 0

def writeFreemap (fs : MksfsFs) (i ino : Nat) : Nat → Except Fault MksfsFs
  | 0 => .ok fs
  | rounds + 1 => do
      let fs ← writeBlock fs (bitmapData ⟨blkBits, blkSize / 4, freemapBuffer fs.ninos fs.nextIno i⟩) blkSize ino
      writeFreemap fs (i + blkBits) (ino + 1) rounds

def inodeSize : Nat := 68

def inodeBytes (inode : CacheInode) : Bytes := memcpy (encodeInode inode.din) 64 (toLe inode.dbIndirect) 4

-- What the walk over the hash lists flushes, list by list.
def flushes (fs : MksfsFs) : List (Nat × Bytes × Nat) :=
  (List.range hashListSize).flatMap fun i =>
    ((fs.blockList.filter fun _ => i = hash32 0).map fun cb => (cb, fs.cacheAt cb, blkSize)) ++
      (fs.inodeList.filter fun ino => i = hash32 (fs.inodeAt ino).real).map fun ino => (ino, inodeBytes (fs.inodeAt ino), inodeSize)

def flushAll (fs : MksfsFs) : List (Nat × Bytes × Nat) → Except Fault MksfsFs
  | [] => .ok fs
  | (ino, data, len) :: rest => do
      let fs ← writeBlock fs data len ino
      flushAll fs rest

def closeSfs (fs : MksfsFs) : Except Fault MksfsFs := do
  let fs ← writeFreemap fs 0 blknFreemap (roundUpDiv fs.ninos blkBits)
  let fs ← writeBlock fs (encodeSuper fs.super) superSize blknSuper
  flushAll fs (flushes fs)

-- create_img of an image file of stSize bytes with the contents of disk.
def createImg (stSize : Nat) (garbage : Bytes) (disk : Nat → Bytes) (home : HostDir) : Except Fault MksfsFs := do
  let fs ← createSfs stSize garbage disk
  let fs ← addDots fs blknRoot blknRoot
  let fs ← openDirLoop blknRoot home fs
  closeSfs fs

end Ucore.Mksfs
