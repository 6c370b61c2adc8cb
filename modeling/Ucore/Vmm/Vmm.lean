import Ucore.Vmm.PageTable

set_option autoImplicit false

namespace Ucore.Vmm

open Ucore.Lib

structure Vma where
  vmStart : Nat
  vmEnd : Nat
  vmFlags : Nat
deriving DecidableEq, Repr

structure Mm where
  mmapList : List Vma
  mmapCache : Option Vma
  pgdir : Pgdir
  mapCount : Nat

def Vma.Has (vma : Vma) (addr : Nat) : Prop := vma.vmStart ≤ addr ∧ addr < vma.vmEnd

instance (vma : Vma) (addr : Nat) : Decidable (vma.Has addr) := inferInstanceAs (Decidable (vma.vmStart ≤ addr ∧ addr < vma.vmEnd))

-- mm_create and setup_pgdir; the page of the root keeps its count.
def mmCreate (mem : Mem) : Option (Mm × Mem) :=
  mem.allocPage.map fun (page, mem) => (⟨[], none, ⟨page, fun _ => none⟩, 0⟩, mem)

def findVma (mm : Mm) (addr : Nat) : Option Vma × Mm :=
  let vma := mm.mmapCache.filter fun vma => vma.Has addr
  let vma := if vma.isSome then vma else mm.mmapList.find? fun vma => vma.Has addr
  (vma, if vma.isSome then { mm with mmapCache := vma } else mm)

def checkVmaOverlap (prev next : Vma) : Except Fault Unit := do
  check (prev.vmStart < prev.vmEnd) .assertFailed
  check (prev.vmEnd ≤ next.vmStart) .assertFailed
  check (next.vmStart < next.vmEnd) .assertFailed

-- The check of two neighbours, where none is the head of the list.
def checkNeighbours : Option Vma → Option Vma → Except Fault Unit
  | some prev, some next => checkVmaOverlap prev next
  | _, _ => .ok ()

-- Before the first area that starts behind the new one.
def insertVmaStruct (mm : Mm) (vma : Vma) : Except Fault Mm := do
  check (vma.vmStart < vma.vmEnd) .assertFailed
  let before := mm.mmapList.takeWhile fun prev => !(vma.vmStart < prev.vmStart : Bool)
  let after := mm.mmapList.dropWhile fun prev => !(vma.vmStart < prev.vmStart : Bool)
  checkNeighbours before.getLast? (some vma)
  checkNeighbours (some vma) after.head?
  return { mm with mmapList := before ++ vma :: after, mapCount := mm.mapCount + 1 }

-- Memory is there for the vma_struct.
def mmMap (mm : Mm) (addr len vmFlags : Nat) : Except Fault (Int × Mm) :=
  let start := roundDown addr pgSize
  let stop := roundUp ((addr + len) % 2 ^ 64) pgSize
  if ¬ UserAccess start stop then .ok (eInval, mm)
  else
    let (vma, mm) := findVma mm start
    if vma.any fun vma => vma.vmStart < stop then .ok (eInval, mm)
    else do
      let mm ← insertVmaStruct mm ⟨start, stop, vmFlags⟩
      return (0, mm)

-- The walk of dup_mmap from the last area to the first.
def dupMmapLoop (mem : Mem) (target : Mm) (source : Pgdir) : List Vma → Except Fault (Int × Mem × Mm)
  | [] => .ok (0, mem, target)
  | vma :: rest => do
      let target ← insertVmaStruct target vma
      let (ret, mem, pgdir) ← copyRange mem target.pgdir source vma.vmStart vma.vmEnd
      let target := { target with pgdir := pgdir }
      if ret ≠ 0 then return (eNoMem, mem, target)
      else dupMmapLoop mem target source rest

def dupMmap (mem : Mem) (target source : Mm) : Except Fault (Int × Mem × Mm) :=
  dupMmapLoop mem target source.pgdir source.mmapList.reverse

def unmapAll (mem : Mem) (pgdir : Pgdir) : List Vma → Except Fault (Mem × Pgdir)
  | [] => .ok (mem, pgdir)
  | vma :: rest => do
      let (mem, pgdir) ← unmapRange mem pgdir vma.vmStart vma.vmEnd
      unmapAll mem pgdir rest

def exitAll (mem : Mem) (pgdir : Pgdir) : List Vma → Except Fault (Mem × Pgdir)
  | [] => .ok (mem, pgdir)
  | vma :: rest => do
      let (mem, pgdir) ← exitRange mem pgdir vma.vmStart vma.vmEnd
      exitAll mem pgdir rest

def exitMmap (mem : Mem) (mm : Mm) : Except Fault (Mem × Mm) := do
  let (mem, pgdir) ← unmapAll mem mm.pgdir mm.mmapList
  let (mem, pgdir) ← exitAll mem pgdir mm.mmapList
  return (mem, { mm with pgdir := pgdir })

def putPgdir (mem : Mem) (mm : Mm) : Except Fault Mem := mem.freePage mm.pgdir.page

end Ucore.Vmm
