import Ucore.Lib.Bytes
import Ucore.Lib.Checked

set_option autoImplicit false

namespace Ucore.Vmm

open Ucore.Lib

-- badFree is a free_page of a page that is not allocated, pageFault an access
-- of the kernel to a user address that is not mapped, wildStore a store of the
-- kernel over entries in use of a page table.
inductive Fault where
  | assertFailed
  | badFree
  | pageFault
  | wildStore
  | outOfFuel
deriving DecidableEq, Repr

def eInval : Int := -3
def eNoMem : Int := -4

def pgSize : Nat := 4096
def ptSize : Nat := 2097152
def pdSize : Nat := 1073741824
def userBase : Nat := 0x00200000
def userTop : Nat := 0x80000000

def roundDown (a n : Nat) : Nat := a / n * n
def roundUp (a n : Nat) : Nat := roundDown (a + n - 1) n

def pdx1 (la : Nat) : Fin 512 := Fin.ofNat 512 (la / pdSize)
def pdx0 (la : Nat) : Fin 512 := Fin.ofNat 512 (la / ptSize)
def ptx (la : Nat) : Fin 512 := Fin.ofNat 512 (la / pgSize)

def UserAccess (start stop : Nat) : Prop := userBase ≤ start ∧ start < stop ∧ stop ≤ userTop

instance (start stop : Nat) : Decidable (UserAccess start stop) :=
  inferInstanceAs (Decidable (userBase ≤ start ∧ start < stop ∧ stop ≤ userTop))

def pteV : Nat := 1
def pteR : Nat := 2
def pteW : Nat := 4
def pteX : Nat := 8
def pteU : Nat := 16
def pteUser : Nat := 31

-- A leaf entry; an entry is either valid or zero.
structure Pte where
  ppn : Nat
  flags : Nat
deriving DecidableEq, Repr

def pteCreate (ppn type : Nat) : Pte := ⟨ppn, pteV ||| type⟩

-- The tables of an address space, each with the page it lies in. The entries of
-- the root for the kernel are the same everywhere and left out.
structure PageTable where
  page : Nat
  entries : Fin 512 → Option Pte

structure PageDir where
  page : Nat
  entries : Fin 512 → Option PageTable

structure Pgdir where
  page : Nat
  entries : Fin 512 → Option PageDir

-- Physical memory: the pages that the manager has, the reference counts, the
-- bytes by physical address, and the pages given to free_page so far. The
-- manager picks a page by what is free; an answer that is not free counts as none.
structure Mem where
  manager : (Nat → Bool) → Option Nat
  free : Nat → Bool
  ref : Nat → Int
  phys : Bytes
  freed : List Nat

namespace Mem

def allocPage (mem : Mem) : Option (Nat × Mem) :=
  match mem.manager mem.free with
  | some page => if mem.free page then some (page, { mem with free := Function.update mem.free page false }) else none
  | none => none

def freePage (mem : Mem) (page : Nat) : Except Fault Mem :=
  if mem.free page then .error .badFree
  else .ok { mem with free := Function.update mem.free page true, ref := Function.update mem.ref page 0, freed := page :: mem.freed }

def setRef (mem : Mem) (page : Nat) (count : Int) : Mem := { mem with ref := Function.update mem.ref page count }

end Mem

namespace Pgdir

def setDir (pgdir : Pgdir) (d1 : Fin 512) (dir : Option PageDir) : Pgdir := { pgdir with entries := Function.update pgdir.entries d1 dir }

-- get_pte without create: none is the null pointer, otherwise the entry there.
def lookup (pgdir : Pgdir) (la : Nat) : Option (Option Pte) :=
  match pgdir.entries (pdx1 la) with
  | none => none
  | some dir =>
      match dir.entries (pdx0 la) with
      | none => none
      | some table => some (table.entries (ptx la))

end Pgdir

def PageDir.setTable (dir : PageDir) (d0 : Fin 512) (table : Option PageTable) : PageDir :=
  { dir with entries := Function.update dir.entries d0 table }

def PageTable.setEntry (table : PageTable) (index : Fin 512) (pte : Option Pte) : PageTable :=
  { table with entries := Function.update table.entries index pte }

-- *ptep = pte, where get_pte found a table.
def Pgdir.setPte (pgdir : Pgdir) (la : Nat) (pte : Option Pte) : Pgdir :=
  match pgdir.entries (pdx1 la) with
  | none => pgdir
  | some dir =>
      match dir.entries (pdx0 la) with
      | none => pgdir
      | some table => pgdir.setDir (pdx1 la) (some (dir.setTable (pdx0 la) (some (table.setEntry (ptx la) pte))))

-- A page for a new table: one reference, and filled with zeros.
def tablePage (mem : Mem) : Option (Nat × Mem) :=
  mem.allocPage.map fun (page, mem) =>
    (page, { mem.setRef page 1 with phys := memcpy mem.phys (page * pgSize) zeroBytes pgSize })

def getDir (mem : Mem) (pgdir : Pgdir) (la : Nat) : Option (PageDir × Mem) :=
  match pgdir.entries (pdx1 la) with
  | some dir => some (dir, mem)
  | none => (tablePage mem).map fun (page, mem) => (⟨page, fun _ => none⟩, mem)

def getTable (mem : Mem) (dir : PageDir) (la : Nat) : Option (PageTable × Mem) :=
  match dir.entries (pdx0 la) with
  | some table => some (table, mem)
  | none => (tablePage mem).map fun (page, mem) => (⟨page, fun _ => none⟩, mem)

-- get_pte with create; false is the null pointer.
def getPte (mem : Mem) (pgdir : Pgdir) (la : Nat) : Bool × Mem × Pgdir :=
  match getDir mem pgdir la with
  | none => (false, mem, pgdir)
  | some (dir, mem) =>
      match getTable mem dir la with
      | none => (false, mem, pgdir.setDir (pdx1 la) (some dir))
      | some (table, mem) => (true, mem, pgdir.setDir (pdx1 la) (some (dir.setTable (pdx0 la) (some table))))

def pageRemovePte (mem : Mem) (pgdir : Pgdir) (la : Nat) : Except Fault (Mem × Pgdir) :=
  match pgdir.lookup la with
  | some (some pte) => do
      let mem := mem.setRef pte.ppn (mem.ref pte.ppn - 1)
      let mem ← if mem.ref pte.ppn = 0 then mem.freePage pte.ppn else .ok mem
      return (mem, pgdir.setPte la none)
  | _ => .ok (mem, pgdir)

def pageInsert (mem : Mem) (pgdir : Pgdir) (page la perm : Nat) : Except Fault (Int × Mem × Pgdir) :=
  match getPte mem pgdir la with
  | (false, mem, pgdir) => .ok (eNoMem, mem, pgdir)
  | (true, mem, pgdir) => do
      let mem := mem.setRef page (mem.ref page + 1)
      let (mem, pgdir) ←
        match pgdir.lookup la with
        | some (some pte) => if pte.ppn = page then .ok (mem.setRef page (mem.ref page - 1), pgdir) else pageRemovePte mem pgdir la
        | _ => .ok (mem, pgdir)
      return (0, mem, pgdir.setPte la (some (pteCreate page (pteV ||| perm))))

def pgdirAllocPage (mem : Mem) (pgdir : Pgdir) (la perm : Nat) : Except Fault (Option Nat × Mem × Pgdir) :=
  match mem.allocPage with
  | none => .ok (none, mem, pgdir)
  | some (page, mem) => do
      let (ret, mem, pgdir) ← pageInsert mem pgdir page la perm
      if ret ≠ 0 then
        let mem ← mem.freePage page
        return (none, mem, pgdir)
      else
        check (mem.ref page = 1) .assertFailed
        return (some page, mem, pgdir)

-- The loops below are do-while loops over user addresses, which do not wrap
-- around. Their fuel is one round for each page of the range.
def unmapLoop (mem : Mem) (pgdir : Pgdir) (start stop : Nat) : Nat → Except Fault (Mem × Pgdir)
  | 0 => .error .outOfFuel
  | fuel + 1 => do
      let (mem, pgdir, next) ←
        match pgdir.lookup start with
        | none => .ok (mem, pgdir, roundDown (start + ptSize) ptSize)
        | some pte => do
            let (mem, pgdir) ← if pte.isSome then pageRemovePte mem pgdir start else .ok (mem, pgdir)
            pure (mem, pgdir, start + pgSize)
      if next ≠ 0 ∧ next < stop then unmapLoop mem pgdir next stop fuel else return (mem, pgdir)

def rangeFuel (start stop : Nat) : Nat := (stop - start) / pgSize + 1

def unmapRange (mem : Mem) (pgdir : Pgdir) (start stop : Nat) : Except Fault (Mem × Pgdir) := do
  check (start % pgSize = 0 ∧ stop % pgSize = 0) .assertFailed
  check (UserAccess start stop) .assertFailed
  unmapLoop mem pgdir start stop (rangeFuel start stop)

def tableEmpty (table : PageTable) : Bool := (List.finRange 512).all fun i => (table.entries i).isNone

-- The inner loop of exit_range, over the page tables of one directory.
def exitTables (mem : Mem) (dir : PageDir) (freePd0 : Bool) (d0start d1start stop : Nat) : Nat → Except Fault (Mem × PageDir × Bool)
  | 0 => .error .outOfFuel
  | fuel + 1 => do
      let (mem, dir, freePd0) ←
        match dir.entries (pdx0 d0start) with
        | some table =>
            if tableEmpty table then do
              let mem ← mem.freePage table.page
              pure (mem, dir.setTable (pdx0 d0start) none, freePd0)
            else .ok (mem, dir, freePd0)
        | none => .ok (mem, dir, false)
      let d0start := d0start + ptSize
      if d0start ≠ 0 ∧ d0start < d1start + pdSize ∧ d0start < stop then exitTables mem dir freePd0 d0start d1start stop fuel
      else return (mem, dir, freePd0)

-- One round of exit_range: the tables of one directory, and then the directory.
def exitDir (mem : Mem) (pgdir : Pgdir) (d1start d0start stop : Nat) : Except Fault (Mem × Pgdir) :=
  match pgdir.entries (pdx1 d1start) with
  | some dir => do
      let (mem, dir, freePd0) ← exitTables mem dir true d0start d1start stop (rangeFuel d0start stop)
      if freePd0 then
        let mem ← mem.freePage dir.page
        return (mem, pgdir.setDir (pdx1 d1start) none)
      else return (mem, pgdir.setDir (pdx1 d1start) (some dir))
  | none => .ok (mem, pgdir)

def exitDirs (mem : Mem) (pgdir : Pgdir) (d1start d0start stop : Nat) : Nat → Except Fault (Mem × Pgdir)
  | 0 => .error .outOfFuel
  | fuel + 1 => do
      let (mem, pgdir) ← exitDir mem pgdir d1start d0start stop
      let d1start := d1start + pdSize
      if d1start ≠ 0 ∧ d1start < stop then exitDirs mem pgdir d1start d1start stop fuel else return (mem, pgdir)

def exitRange (mem : Mem) (pgdir : Pgdir) (start stop : Nat) : Except Fault (Mem × Pgdir) := do
  check (start % pgSize = 0 ∧ stop % pgSize = 0) .assertFailed
  check (UserAccess start stop) .assertFailed
  exitDirs mem pgdir (roundDown start pdSize) (roundDown start ptSize) stop (rangeFuel start stop)

-- The address space that is copied is another one than the one that is built.
def copyLoop (mem : Mem) (target source : Pgdir) (start stop : Nat) : Nat → Except Fault (Int × Mem × Pgdir)
  | 0 => .error .outOfFuel
  | fuel + 1 =>
      match source.lookup start with
      | none =>
          let next := roundDown (start + ptSize) ptSize
          if next ≠ 0 ∧ next < stop then copyLoop mem target source next stop fuel else .ok (0, mem, target)
      | some none =>
          let next := start + pgSize
          if next ≠ 0 ∧ next < stop then copyLoop mem target source next stop fuel else .ok (0, mem, target)
      | some (some pte) =>
          match getPte mem target start with
          | (false, mem, target) => .ok (eNoMem, mem, target)
          | (true, mem, target) =>
              match mem.allocPage with
              | none => .error .assertFailed
              | some (npage, mem) => do
                  let mem := { mem with phys := memcpy mem.phys (npage * pgSize) (mem.phys.from (pte.ppn * pgSize)) pgSize }
                  let (ret, mem, target) ← pageInsert mem target npage start (pte.flags &&& pteUser)
                  if ret ≠ 0 then return (ret, mem, target)
                  else
                    let next := start + pgSize
                    if next ≠ 0 ∧ next < stop then copyLoop mem target source next stop fuel else return (0, mem, target)

def copyRange (mem : Mem) (target source : Pgdir) (start stop : Nat) : Except Fault (Int × Mem × Pgdir) := do
  check (start % pgSize = 0 ∧ stop % pgSize = 0) .assertFailed
  check (UserAccess start stop) .assertFailed
  copyLoop mem target source start stop (rangeFuel start stop)

end Ucore.Vmm
