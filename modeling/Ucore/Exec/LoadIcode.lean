import Ucore.Sfs.FilePanics
import Ucore.Sfs.ReadExact
import Ucore.Vmm.ForkCopy
import Ucore.Vmm.UserCheck

set_option autoImplicit false

namespace Ucore.Exec

open Ucore.Lib Ucore.Vmm

def eInvalElf : Int := -8

def elfMagic : Nat := 0x464c457f
def elfPtLoad : Nat := 1
def elfPfX : Nat := 1
def elfPfW : Nat := 2
def elfPfR : Nat := 4

def ustackTop : Nat := userTop
def ustackPage : Nat := 256
def ustackSize : Nat := ustackPage * pgSize

def sizeofElfhdr : Nat := 64
def sizeofProghdr : Nat := 56
def sizeofPtr : Nat := 8

structure Elfhdr where
  eMagic : Nat
  eEntry : Nat
  ePhoff : Nat
  ePhnum : Nat

structure Proghdr where
  pType : Nat
  pFlags : Nat
  pOffset : Nat
  pVa : Nat
  pFilesz : Nat
  pMemsz : Nat
deriving DecidableEq, Repr

def elfhdrAt (buf : Bytes) : Elfhdr := ⟨getLe buf 0 4, getLe buf 24 8, getLe buf 32 8, getLe buf 56 2⟩

def proghdrAt (buf : Bytes) : Proghdr :=
  ⟨getLe buf 0 4, getLe buf 4 4, getLe buf 8 8, getLe buf 16 8, getLe buf 32 8, getLe buf 40 8⟩

def sfsMaxFileSize : Nat := 1024 * 1024 * 128

-- A program: a regular file of a mounted SFS with enough blocks for its size, on a
-- disk that works.
structure ElfFile where
  sfs : Sfs.SfsFs
  sin : Sfs.SfsInode
  mounted : Sfs.Mounted sfs
  map : ∃ others, others 0 ∧ Sfs.FileMap sfs sin.din others
  covered : sin.din.size ≤ sin.din.blocks * 4096
  works : sfs.dev.results = []

namespace ElfFile

def size (file : ElfFile) : Nat := file.sin.din.size

def bytes (file : ElfFile) : Bytes := Sfs.fileByte file.sfs file.sin.din

theorem stored (file : ElfFile) : Sfs.Stored file.sfs file.sin.din := by
  obtain ⟨others, _, map⟩ := file.map
  exact ⟨map.type, map.bounded, file.covered, Sfs.map_in_use _ _ _ map⟩

theorem fits (file : ElfFile) : file.size ≤ sfsMaxFileSize :=
  (Sfs.stored_small file.sfs file.sin.din file.stored).trans (by decide)

end ElfFile

-- What else may fail: the kmallocs of the mm_struct, of a vma_struct and of uargv, a
-- read of the disk, and its transfers while a seek makes the file longer. They may
-- depend on where the load stands, which is never twice the same, so each of them can
-- fail at any point; at most one seek of a load makes the file longer.
structure Failures where
  mmStruct : Bool
  vmaStruct : Mm → Bool
  uargv : Bool
  read : Mem → Nat → Nat → Option Int
  negative : ∀ mem len offset ret, read mem len offset = some ret → ret < 0
  grow : Option Int
  negativeGrow : ∀ ret, grow = some ret → ret < 0

-- sfs_tryseek makes the file longer for a position behind its end. The kernel stops
-- where the assertions and panics of the file system do.
def vopTryseek (file : ElfFile) (offset : Nat) : Except Fault Int :=
  ((Sfs.sfsTryseek file.sfs file.sin (Sfs.toOff offset)).map Prod.fst).mapError fun _ => .assertFailed

def sysfileSeek (fails : Failures) (file : ElfFile) (offset : Nat) : Except Fault Int :=
  match fails.grow with
  | some ret => if file.size < offset ∧ offset < sfsMaxFileSize then .ok ret else vopTryseek file offset
  | none => vopTryseek file offset

-- The code and what is in the buffer. A read that comes back short is -1. This is so
-- behind a seek that made the file longer: the file then ends at the position, and as
-- the load fails there is no further read of it.
def loadIcodeRead (fails : Failures) (file : ElfFile) (mem : Mem) (len offset : Nat) : Except Fault (Int × Bytes) := do
  let ret ← sysfileSeek fails file offset
  if ret ≠ 0 then return (ret, zeroBytes)
  else
    match fails.read mem len offset with
    | some ret => return (ret, zeroBytes)
    | none => return if offset + len ≤ file.size then (0, file.bytes.from offset) else (-1, zeroBytes)

-- What load_icode gets from kmalloc and keeps.
inductive Block where
  | mm
  | vma (vma : Vma)
  | uargv
deriving DecidableEq, Repr

-- mm_map, where vma_create may fail, and the block that it got.
def mmMapOr (fails : Failures) (mm : Mm) (addr len vmFlags : Nat) : Except Fault (Int × Mm × List Block) :=
  let start := roundDown addr pgSize
  let stop := roundUp ((addr + len) % 2 ^ 64) pgSize
  if ¬ UserAccess start stop then .ok (eInval, mm, [])
  else
    let (vma, mm) := findVma mm start
    if vma.any fun vma => vma.vmStart < stop then .ok (eInval, mm, [])
    else if fails.vmaStruct mm then .ok (eNoMem, mm, [])
    else do
      let mm ← insertVmaStruct mm ⟨start, stop, vmFlags⟩
      return (0, mm, [.vma ⟨start, stop, vmFlags⟩])

-- What mm_destroy gives back.
def mmDestroy (mm : Mm) : List Block := mm.mmapList.map Block.vma ++ [.mm]

def sub64 (a b : Nat) : Nat := (a + 2 ^ 64 - b) % 2 ^ 64

def Proghdr.vmFlags (ph : Proghdr) : Nat :=
  (if ph.pFlags &&& elfPfR ≠ 0 then vmRead else 0) ||| (if ph.pFlags &&& elfPfW ≠ 0 then vmWrite else 0) |||
    (if ph.pFlags &&& elfPfX ≠ 0 then vmExec else 0)

def pagePerm (vmFlags : Nat) : Nat :=
  pteU ||| pteV ||| (if vmFlags &&& vmRead ≠ 0 then pteR else 0) ||| (if vmFlags &&& vmWrite ≠ 0 then pteW ||| pteR else 0) |||
    (if vmFlags &&& vmExec ≠ 0 then pteX else 0)

-- One round of the two loops below: off, size and the address that is filled. The
-- numbers of the code are size_t. With start behind la its off wraps around, and
-- the size and the address wrap back, so they are integers here.
def roundOff (start la : Nat) : Int := start - la

def roundSize (start stop la : Nat) : Nat :=
  if stop < la + pgSize then stop - start else ((pgSize : Int) - roundOff start la).toNat

def roundAddr (page start la : Nat) : Nat := ((page * pgSize : Nat) + roundOff start la).toNat

-- One round for each page and one to see the end.
def loopFuel (start stop : Nat) : Nat := (stop - start) / pgSize + 3

-- The loop over the bytes of the file. It gives back where start and la stand.
def loadText (fails : Failures) (file : ElfFile) (mem : Mem) (pgdir : Pgdir) (perm stop start la offset : Nat) :
    Nat → Except Fault (Int × Mem × Pgdir × Nat × Nat)
  | 0 => .error .outOfFuel
  | fuel + 1 =>
      if start < stop then do
        let (page, mem, pgdir) ← pgdirAllocPage mem pgdir la perm
        match page with
        | none => return (eNoMem, mem, pgdir, start, la)
        | some page =>
            let size := roundSize start stop la
            let (ret, buf) ← loadIcodeRead fails file mem size offset
            if ret ≠ 0 then return (ret, mem, pgdir, start, la)
            else
              let mem := { mem with phys := memcpy mem.phys (roundAddr page start la) buf size }
              loadText fails file mem pgdir perm stop (start + size) (la + pgSize) (offset + size) fuel
      else return (0, mem, pgdir, start, la)

-- What a table holds as bytes, by its entries of 8 bytes. The kernel's own entry of a
-- root is the last one, of boot_page_table_sv39.
def pteWord (pte : Pte) : Nat := pte.ppn * 2 ^ 10 + pte.flags

def pdeWord (page : Nat) : Nat := page * 2 ^ 10 + (pteU ||| pteV)

def kernPde : Nat := 0x80000 * 2 ^ 10 + 0xcf

def tableByte {α : Type} (entries : Fin 512 → Option α) (word : α → Nat) (i : Nat) : UInt8 :=
  if bound : i / 8 < 512 then ((entries ⟨i / 8, bound⟩).elim zeroBytes fun entry => toLe (word entry)) (i % 8) else 0

def rootByte (pgdir : Pgdir) (i : Nat) : UInt8 :=
  if i / 8 = 511 then toLe kernPde (i % 8) else tableByte pgdir.entries (fun dir => pdeWord dir.page) i

-- Whether zeros over size bytes from first on change one of the bytes of a page.
def zeroed (bytes : Bytes) (first size : Nat) : Bool :=
  (List.range size).any fun i => decide (first + i < pgSize) && bytes (first + i) != 0

-- With start behind la the memset of the loop below begins in the frame below the
-- page. It strikes a page table that lies there when it changes a byte of it.
def struck (pgdir : Pgdir) (page start la size : Nat) : Bool :=
  decide (start < la) &&
    (pgdir.page + 1 == page && zeroed (rootByte pgdir) (pgSize - (la - start)) size ||
      (List.finRange 512).any fun d1 => (pgdir.entries d1).any fun dir =>
        dir.page + 1 == page && zeroed (tableByte dir.entries fun table => pdeWord table.page) (pgSize - (la - start)) size ||
          (List.finRange 512).any fun d0 => (dir.entries d0).any fun table =>
            table.page + 1 == page && zeroed (tableByte table.entries pteWord) (pgSize - (la - start)) size)

-- The loop over the rest of the segment. It has its first page at la, where the
-- loop above stopped. The page tables are trees apart from the bytes of their pages, so
-- a memset that changes one of them ends the model; elsewhere it writes what it meets.
def buildBss (mem : Mem) (pgdir : Pgdir) (perm stop start la : Nat) : Nat → Except Fault (Int × Mem × Pgdir)
  | 0 => .error .outOfFuel
  | fuel + 1 =>
      if start < stop then do
        let (page, mem, pgdir) ← pgdirAllocPage mem pgdir la perm
        match page with
        | none => return (eNoMem, mem, pgdir)
        | some page =>
            let size := roundSize start stop la
            check (!struck pgdir page start la size) .wildStore
            let mem := { mem with phys := memcpy mem.phys (roundAddr page start la) zeroBytes size }
            buildBss mem pgdir perm stop (start + size) (la + pgSize) fuel
      else return (0, mem, pgdir)

def loadSegment (fails : Failures) (file : ElfFile) (mem : Mem) (mm : Mm) (ph : Proghdr) : Except Fault (Int × Mem × Mm × List Block) :=
  if ph.pFilesz > ph.pMemsz then .ok (eInvalElf, mem, mm, [])
  else do
    let perm := pagePerm ph.vmFlags
    let (ret, mm, made) ← mmMapOr fails mm ph.pVa ph.pMemsz ph.vmFlags
    if ret ≠ 0 then return (ret, mem, mm, made)
    else
      let stop := (ph.pVa + ph.pFilesz) % 2 ^ 64
      let (ret, mem, pgdir, start, la) ←
        loadText fails file mem mm.pgdir perm stop ph.pVa (roundDown ph.pVa pgSize) ph.pOffset (loopFuel ph.pVa stop)
      if ret ≠ 0 then return (ret, mem, { mm with pgdir := pgdir }, made)
      else
        let stop := (ph.pVa + ph.pMemsz) % 2 ^ 64
        let (ret, mem, pgdir) ← buildBss mem pgdir perm stop start la (loopFuel start stop)
        return (ret, mem, { mm with pgdir := pgdir }, made)

-- The loop over the program headers, of which so many are left.
def loadSegments (fails : Failures) (file : ElfFile) (mem : Mem) (mm : Mm) (phoff : Nat) : Nat → Except Fault (Int × Mem × Mm × List Block)
  | 0 => .ok (0, mem, mm, [])
  | left + 1 => do
      let (ret, buf) ← loadIcodeRead fails file mem sizeofProghdr phoff
      if ret ≠ 0 then return (ret, mem, mm, [])
      else if (proghdrAt buf).pType ≠ elfPtLoad then loadSegments fails file mem mm (phoff + sizeofProghdr) left
      else
        let (ret, mem, mm, made) ← loadSegment fails file mem mm (proghdrAt buf)
        if ret ≠ 0 then return (ret, mem, mm, made)
        else
          let (ret, mem, mm, others) ← loadSegments fails file mem mm (phoff + sizeofProghdr) left
          return (ret, mem, mm, made ++ others)

def stackPerm : Nat := pteU ||| pteV ||| pteR ||| pteW

def stackPages (mem : Mem) (pgdir : Pgdir) : List Nat → Except Fault (Int × Mem × Pgdir)
  | [] => .ok (0, mem, pgdir)
  | i :: rest => do
      let (page, mem, pgdir) ← pgdirAllocPage mem pgdir (ustackTop - i * pgSize) stackPerm
      if page.isNone then return (eNoMem, mem, pgdir)
      else stackPages mem pgdir rest

def setupStack (fails : Failures) (mem : Mem) (mm : Mm) : Except Fault (Int × Mem × Mm × List Block) := do
  let (ret, mm, made) ← mmMapOr fails mm (ustackTop - ustackSize) ustackSize (vmRead ||| vmWrite ||| vmStack)
  if ret ≠ 0 then return (ret, mem, mm, made)
  else
    let (ret, mem, pgdir) ← stackPages mem mm.pgdir [1, 2, 3, 4]
    return (ret, mem, { mm with pgdir := pgdir }, made)

-- A store of the kernel to a user address: nothing but a report answers a fault.
def storeUser (mem : Mem) (pgdir : Pgdir) (va : Nat) (value : UInt8) : Except Fault Mem :=
  match pgdir.entry (va / pgSize) with
  | some pte => if pte.flags &&& pteW ≠ 0 then .ok (storeByte mem pgdir va value) else .error .pageFault
  | none => .error .pageFault

def memcpyUser (mem : Mem) (pgdir : Pgdir) (va : Nat) (src : Bytes) : Nat → Except Fault Mem
  | 0 => .ok mem
  | len + 1 => do
      let mem ← storeUser mem pgdir va (src 0)
      memcpyUser mem pgdir (va + 1) (src.from 1) len

def cString (arg : List UInt8) : Bytes := fun i => arg.getD i 0

-- The arguments from the last to the first, each below the one before; do_execve
-- lets no more through than 32 of at most 4096 bytes.
def pushArgs (mem : Mem) (pgdir : Pgdir) (sp : Nat) : List (List UInt8) → Except Fault (Mem × Nat × List Nat)
  | [] => .ok (mem, sp, [])
  | arg :: rest => do
      let (mem, sp, uargv) ← pushArgs mem pgdir sp rest
      let len := arg.length + 1
      let sp := sub64 sp len
      let mem ← memcpyUser mem pgdir sp (cString arg) len
      return (mem, sp, sp :: uargv)

def pointerBytes (uargv : List Nat) : Bytes := fun i => toLe (uargv.getD (i / sizeofPtr) 0) (i % sizeofPtr)

def setupArgs (mem : Mem) (pgdir : Pgdir) (kargv : List (List UInt8)) : Except Fault (Mem × Nat) := do
  let (mem, sp, uargv) ← pushArgs mem pgdir ustackTop kargv
  let sp := sub64 (roundDown sp sizeofPtr) (sizeofPtr * kargv.length)
  let mem ← memcpyUser mem pgdir sp (pointerBytes uargv) (sizeofPtr * kargv.length)
  return (mem, sp)

structure Trapframe where
  sp : Nat
  a0 : Nat
  a1 : Nat
  epc : Nat
deriving DecidableEq, Repr

structure Loaded where
  mm : Mm
  tf : Trapframe

-- current->mm and current->tf when it has been loaded, the page table base, and the
-- blocks that were got and given back.
structure Outcome where
  ret : Int
  mem : Mem
  current : Option Loaded
  satp : Nat
  made : List Block
  kfreed : List Block

-- exit_mmap asserts that nobody uses the mm, whose count is in mmCount.
def badCleanupMmap (ret : Int) (mem : Mem) (mm : Mm) (mmCount satp : Nat) (made : List Block) : Except Fault Outcome := do
  check (mmCount = 0) .assertFailed
  let (mem, mm) ← exitMmap mem mm
  let mem ← putPgdir mem mm
  return ⟨ret, mem, none, satp, made, mmDestroy mm⟩

-- The caller has no memory of its own left and runs on the page table of the kernel.
def loadIcode (fails : Failures) (mem : Mem) (satp : Nat) (file : ElfFile) (kargv : List (List UInt8)) : Except Fault Outcome :=
  if fails.mmStruct then .ok ⟨eNoMem, mem, none, satp, [], []⟩
  else
    match mmCreate mem with
    | none => .ok ⟨eNoMem, mem, none, satp, [.mm], [.mm]⟩
    | some (mm, mem) => do
        let (ret, buf) ← loadIcodeRead fails file mem sizeofElfhdr 0
        if ret ≠ 0 then badCleanupMmap ret mem mm 0 satp [.mm]
        else if (elfhdrAt buf).eMagic ≠ elfMagic then badCleanupMmap eInvalElf mem mm 0 satp [.mm]
        else
          let (ret, mem, mm, made) ← loadSegments fails file mem mm (elfhdrAt buf).ePhoff (elfhdrAt buf).ePhnum
          if ret ≠ 0 then badCleanupMmap ret mem mm 0 satp (.mm :: made)
          else
            let (ret, mem, mm, stack) ← setupStack fails mem mm
            if ret ≠ 0 then badCleanupMmap ret mem mm 0 satp (.mm :: made ++ stack)
            else if fails.uargv then badCleanupMmap eNoMem mem mm 1 mm.pgdir.page (.mm :: made ++ stack)
            else
              let (mem, sp) ← setupArgs mem mm.pgdir kargv
              return ⟨0, mem, some ⟨mm, ⟨sp, kargv.length, sp, (elfhdrAt buf).eEntry⟩⟩, mm.pgdir.page, .mm :: made ++ stack ++ [.uargv],
                [.uargv]⟩

end Ucore.Exec
