import Ucore.Lib.Blocks
import Ucore.Lib.Run
import Ucore.Lib.WordMemory

set_option autoImplicit false

namespace Ucore.Slub

open Ucore.Lib

def pageSize : Nat := 4096

-- sizeof(slab_header_t) and sizeof(kmem_cache_t).
def slabHeaderSize : Nat := 40
def cacheBytes : Nat := 64

def objSizes : List Nat := [8, 16, 32, 64, 128, 256]
def objSize (idx : Nat) : Nat := objSizes.getD idx 0
def objCnt : Nat := 6
def objsPerSlab (idx : Nat) : Nat := (pageSize - slabHeaderSize) / objSize idx

-- The fields of a kmem_cache_t and of a slab_header_t by address; state is an enum in
-- the low half of its word.
def objSizeOf (cache : Nat) : Nat := cache
def objAlignOf (cache : Nat) : Nat := cache + 8
def objsPerSlabOf (cache : Nat) : Nat := cache + 16
def freeObjList (cache : Nat) : Nat := cache + 24
def slabList (cache : Nat) : Nat := cache + 40
def stateOf (cache : Nat) : Nat := cache + 56

def cacheOf (slab : Nat) : Nat := slab
def slabSizeOf (slab : Nat) : Nat := slab + 8
def freeObjCnt (slab : Nat) : Nat := slab + 16
def slabLink (slab : Nat) : Nat := slab + 24

def cacheAvailable : Nat := 0
def cacheNeedSlab : Nat := 1

-- slub_caches[idx]
def cacheAt (caches idx : Nat) : Nat := caches + cacheBytes * idx

def initCache (caches : Nat) (m : Memory) (idx : Nat) : Memory :=
  let cache := cacheAt caches idx
  let m := m.store (objSizeOf cache) (objSize idx)
  let m := m.store (objAlignOf cache) (objSize idx)
  let m := m.store (objsPerSlabOf cache) (objsPerSlab idx)
  let m := m.listInit (freeObjList cache)
  let m := m.listInit (slabList cache)
  m.store (stateOf cache) cacheNeedSlab

def slubInit (caches : Nat) (m : Memory) : Memory := (List.range objCnt).foldl (initCache caches) m

-- A page is its index in pages, from nbase on in physical memory.
def page2va (page : Nat) : Nat := (page + 0x80000000 / pageSize) * pageSize + 0xFFFFFFFF40000000

-- The loop of slab_alloc over the objects; none is a loop of more rounds than a page has bytes.
def threadObjects (cache : Nat) : Nat → Nat → Nat → Memory → Option Memory
  | 0, _, _, _ => none
  | fuel + 1, i, objVa, m =>
      if i < m.load (objsPerSlabOf cache) then
        let m := m.listAdd (freeObjList cache) objVa
        threadObjects cache fuel (i + 1) (objVa + m.load (objSizeOf cache)) m
      else some m

-- alloc_pages(1) answers page; false is the return of -1.
def slabAlloc (npage : Nat) (m : Memory) (cache : Nat) (page : Option Nat) : Option (Bool × Memory) :=
  match page with
  | none => some (false, m)
  | some page =>
      if npage ≤ page then some (false, m)
      else
        let slab := page2va page
        let m := m.store (cacheOf slab) cache
        let m := m.store (slabSizeOf slab) pageSize
        let m := m.store (freeObjCnt slab) (m.load (objsPerSlabOf cache))
        let m := m.listAdd (slabList cache) (slabLink slab)
        (threadObjects cache pageSize 0 (slab + slabHeaderSize) m).map fun m => (true, m.store (stateOf cache) cacheAvailable)

def slubGetCacheIdx (size : Nat) : Option Nat := (List.range objCnt).find? fun idx => size ≤ objSize idx

def NeedsSlab (m : Memory) (cache : Nat) : Prop := m.load (stateOf cache) = cacheNeedSlab ∨ m.ListEmpty (freeObjList cache)

instance (m : Memory) (cache : Nat) : Decidable (NeedsSlab m cache) :=
  inferInstanceAs (Decidable (m.load (stateOf cache) = cacheNeedSlab ∨ m.ListEmpty (freeObjList cache)))

-- kmalloc takes the object off the list and counts it in the first slab of the list.
def takeObject (m : Memory) (cache : Nat) : Option Nat × Memory :=
  let freeObjNode := m.load (freeObjList cache + 8)
  let m := m.listDel freeObjNode
  if m.ListEmpty (slabList cache) then (none, m)
  else
    let slab := m.load (slabList cache + 8) - 24
    (some freeObjNode, m.store (freeObjCnt slab) ((m.load (freeObjCnt slab) + 2 ^ 64 - 1) % 2 ^ 64))

-- The cache of a request; none is a request that kmalloc refuses.
def requestIdx (size : Nat) : Option Nat := if size = 0 ∨ objSize (objCnt - 1) < size then none else slubGetCacheIdx size

def kmalloc (caches npage : Nat) (m : Memory) (size : Nat) (page : Option Nat) : Option (Option Nat × Memory) :=
  match requestIdx size with
  | none => some (none, m)
  | some idx =>
      let cache := cacheAt caches idx
      if NeedsSlab m cache then
        (slabAlloc npage m cache page).map fun (success, m) => if success then takeObject m cache else (none, m)
      else some (takeObject m cache)

def kfree (caches : Nat) (m : Memory) (obj : Nat) : Memory :=
  if obj = 0 then m
  else
    let slab := obj - obj % pageSize
    let cache := m.load (cacheOf slab)
    if cache < caches ∨ cacheAt caches objCnt ≤ cache then m
    else if obj < slab + slabHeaderSize ∨ slab + pageSize ≤ obj then m
    else
      let m := m.listAdd (freeObjList cache) obj
      m.store (freeObjCnt slab) ((m.load (freeObjCnt slab) + 1) % 2 ^ 64)

-- What a caller of kmalloc holds.
structure Object where
  addr : Nat
  size : Nat
deriving DecidableEq, Repr

namespace Object

def idx (o : Object) : Nat := (requestIdx o.size).getD 0
def block (o : Object) : Block := ⟨o.addr, objSize o.idx⟩

end Object

-- The memory with the objects in use and the pages that alloc_pages has given.
structure System where
  memory : Memory
  live : List Object
  pages : List Nat

-- A caller writes words of its object between the calls.
inductive Call where
  | kmalloc (size : Nat) (page : Option Nat)
  | kfree (obj : Nat)
  | use (obj index value : Nat)
deriving DecidableEq, Repr

-- The words of a request that a caller may write.
def Writable (s : System) (obj index : Nat) : Prop := ∃ o ∈ s.live, o.addr = obj ∧ 8 * index < o.size

instance (s : System) (obj index : Nat) : Decidable (Writable s obj index) :=
  inferInstanceAs (Decidable (∃ o ∈ s.live, o.addr = obj ∧ 8 * index < o.size))

def pagesTaken (caches : Nat) (s : System) (size : Nat) (page : Option Nat) : List Nat :=
  match requestIdx size with
  | none => []
  | some idx => if NeedsSlab s.memory (cacheAt caches idx) then page.toList else []

-- The addresses written are those of the last call alone.
def System.step (caches npage : Nat) (s : System) : Call → Option System
  | .kmalloc size page =>
      (kmalloc caches npage ⟨s.memory.word, []⟩ size page).map fun (pointer, m) =>
        ⟨m, (pointer.map fun p => ⟨p, size⟩).toList ++ s.live, pagesTaken caches s size page ++ s.pages⟩
  | .kfree obj =>
      if s.live.any fun o => o.addr = obj then some ⟨kfree caches ⟨s.memory.word, []⟩ obj, s.live.eraseP fun o => o.addr = obj, s.pages⟩ else none
  | .use obj index value => if Writable s obj index then some { s with memory := (⟨s.memory.word, []⟩ : Memory).store (obj + 8 * index) value } else none

def System.boot (caches : Nat) (word : Nat → Nat) : System := ⟨slubInit caches ⟨word, []⟩, [], []⟩

-- alloc_pages gives a page that is not in use: none of the kernel's data and none given before.
def Given (caches : Nat) (s : System) : Call → Prop
  | .kmalloc _ page => ∀ p ∈ page, p ∉ s.pages ∧ (page2va p + pageSize ≤ caches ∨ cacheAt caches objCnt ≤ page2va p)
  | _ => True

instance (caches : Nat) (s : System) : (call : Call) → Decidable (Given caches s call)
  | .kmalloc _ page => inferInstanceAs (Decidable (∀ p ∈ page, p ∉ s.pages ∧ (page2va p + pageSize ≤ caches ∨ cacheAt caches objCnt ≤ page2va p)))
  | .kfree _ => inferInstanceAs (Decidable True)
  | .use _ _ _ => inferInstanceAs (Decidable True)

end Ucore.Slub
