import Ucore.Lib.Checked
import Ucore.Lib.Run
import Ucore.Lib.Tiles
import Ucore.Pmm.DefaultPmm

set_option autoImplicit false

namespace Ucore.Pmm.Buddy

open Ucore.Lib

def maxOrder : Nat := 10

-- DRAM_BASE / PGSIZE, the frame number of pages[0].
def nbase : Nat := 0x80000

def pgshift : Nat := 12

inductive Fault where
  | assertFailed
  | invalidPa
  | outOfArray
  | notLinked
  | outOfFuel
deriving DecidableEq, Repr

-- The array pages as page_init leaves it. It lies in the gigabyte that
-- boot_page_table_sv39 maps; sizeof(struct Page) is 40. Pages are named by their
-- frame number, page2ppn.
structure FrameArray where
  npage : Nat
  page : Nat → Page
  mapped : (npage - nbase) * 40 ≤ 2 ^ 30
  reserved : ∀ p, (page p).pgReserved = true ∧ (page p).pgProperty = false

-- free_areas: the pages on the list of each order from its head on, and nr_free.
structure BuddyState where
  page : Nat → Page
  freeList : Nat → List Nat
  nrFree : Nat → BitVec 32

namespace BuddyState

def setPage (s : BuddyState) (p : Nat) (value : Page) : BuddyState := { s with page := Function.update s.page p value }

-- list_add_before the head of a list, with nr_free++.
def addBlock (s : BuddyState) (order p : Nat) : BuddyState :=
  { s with
    freeList := Function.update s.freeList order (s.freeList order ++ [p])
    nrFree := Function.update s.nrFree order (s.nrFree order + 1) }

-- list_del with nr_free--.
def delBlock (s : BuddyState) (order p : Nat) : Except Fault BuddyState := do
  check (p ∈ s.freeList order) .notLinked
  return { s with
    freeList := Function.update s.freeList order ((s.freeList order).erase p)
    nrFree := Function.update s.nrFree order (s.nrFree order - 1) }

end BuddyState

def buddyInit (pages : FrameArray) : BuddyState := ⟨pages.page, fun _ => [], fun _ => 0⟩

-- The inner loop of buddy_init_memmap.
def growOrder (remaining : Nat) : Nat → Nat → Nat
  | 0, order => order
  | fuel + 1, order => if 2 ^ (order + 1) ≤ remaining ∧ order + 1 < maxOrder then growOrder remaining fuel (order + 1) else order

def cutBlocks : Nat → Nat → Nat → BuddyState → Except Fault BuddyState
  | 0, _, _, _ => .error .outOfFuel
  | fuel + 1, p, remaining, s =>
      if remaining = 0 then .ok s
      else
        let order := growOrder remaining maxOrder 0
        let s := s.setPage p { s.page p with property := 2 ^ order, pgProperty := true }
        cutBlocks fuel (p + 2 ^ order) (remaining - 2 ^ order) (s.addBlock order p)

def buddyInitMemmap (s : BuddyState) (base n : Nat) : Except Fault BuddyState := do
  check (0 < n) .assertFailed
  let page := fun p => if base ≤ p ∧ p < base + n then ⟨0, false, false, 0⟩ else s.page p
  cutBlocks (n + 1) base n { s with page := page }

-- The loop of get_order, where size is 1 << order.
def orderLoop (n : Nat) : Nat → Nat → Nat
  | 0, order => order
  | fuel + 1, order => if 2 ^ order < n ∧ order < maxOrder - 1 then orderLoop n fuel (order + 1) else order

def getOrder (n : Nat) : Nat := if n = 0 then 0 else orderLoop n maxOrder 0

-- The search of buddy_alloc_pages for the first order with a free block.
def findOrder (s : BuddyState) (target : Nat) : Option Nat :=
  (List.range' target (maxOrder - target)).find? fun order => 0 < s.nrFree order

-- The halving of the block at p from the order target + count down to target.
def splitBlock (p target : Nat) : Nat → BuddyState → BuddyState
  | 0, s => s
  | count + 1, s =>
      let order := target + count
      let buddy := p + 2 ^ order
      let s := s.setPage buddy { s.page buddy with property := 2 ^ order, pgProperty := true }
      splitBlock p target count (s.addBlock order buddy)

def buddyAllocPages (s : BuddyState) (n : Nat) : Except Fault (Option Nat × BuddyState) := do
  check (0 < n) .assertFailed
  if 2 ^ (maxOrder - 1) < n then return (none, s)
  else
    let target := getOrder n
    match findOrder s target with
    | none => return (none, s)
    | some found =>
        match s.freeList found with
        | [] => .error .notLinked
        | p :: _ => do
            let s ← s.delBlock found p
            let s := s.setPage p { s.page p with pgProperty := false }
            let s := splitBlock p target (found - target) s
            return (some p, s.setPage p { s.page p with property := 2 ^ target, pgProperty := false })

def page2pa (p : Nat) : Nat := p <<< pgshift

def pa2page (pages : FrameArray) (pa : Nat) : Except Fault Nat :=
  let ppn := pa >>> pgshift
  if pages.npage ≤ ppn then .error .invalidPa else if ppn < nbase then .error .outOfArray else .ok ppn

def findBuddy (pages : FrameArray) (p order : Nat) : Except Fault Nat := pa2page pages (page2pa p ^^^ (2 ^ order * 4096))

def isBuddyFree (s : BuddyState) (buddy order : Nat) : Bool := (s.page buddy).pgProperty && (s.page buddy).property = 2 ^ order

-- The loop of buddy_free_pages: the order and the page that it ends with.
def mergeLoop (pages : FrameArray) : Nat → Nat → Nat → BuddyState → Except Fault (Nat × Nat × BuddyState)
  | 0, _, _, _ => .error .outOfFuel
  | fuel + 1, order, p, s =>
      if order < maxOrder - 1 then do
        let buddy ← findBuddy pages p order
        if isBuddyFree s buddy order then do
          let s ← s.delBlock order buddy
          let s := s.setPage buddy { s.page buddy with pgProperty := false }
          let p := if buddy < p then buddy else p
          mergeLoop pages fuel (order + 1) p (s.setPage p { s.page p with property := 2 ^ (order + 1) })
        else return (order, p, s)
      else return (order, p, s)

def buddyFreePages (pages : FrameArray) (s : BuddyState) (base n : Nat) : Except Fault BuddyState := do
  check (0 < n) .assertFailed
  check (!(s.page base).pgReserved && !(s.page base).pgProperty) .assertFailed
  let order := getOrder n
  check (2 ^ order = n) .assertFailed
  let s := s.setPage base { s.page base with property := 2 ^ order, pgProperty := true }
  let (order, p, s) ← mergeLoop pages maxOrder order base s
  return s.addBlock order p

-- nr_free * (1 << order) is an unsigned int.
def buddyNrFreePages (s : BuddyState) : Nat := ((List.range maxOrder).map fun order => (s.nrFree order * BitVec.ofNat 32 (2 ^ order)).toNat).sum

-- A block as it was granted: its first page, the pages asked for and property.
structure Grant where
  page : Nat
  asked : Nat
  pages : Nat
deriving DecidableEq, Repr

def Grant.block (g : Grant) : Block := ⟨g.page, g.pages⟩

-- The allocator with the live blocks, and the blocks that were ever split, as the
-- page and the order of each.
structure System where
  buddy : BuddyState
  live : List Grant
  parents : List (Nat × Nat)

inductive Call where
  | alloc (n : Nat)
  | free (g : Grant)
deriving DecidableEq, Repr

-- The orders at which an allocation splits the block that it takes.
def splitOrders (s : BuddyState) (n : Nat) : List Nat :=
  match findOrder s (getOrder n) with
  | none => []
  | some found => List.range' (getOrder n + 1) (found - getOrder n)

namespace System

def call (pages : FrameArray) (s : System) : Call → Except Fault System
  | .alloc n => do
      match ← buddyAllocPages s.buddy n with
      | (none, buddy) => return { s with buddy := buddy }
      | (some p, buddy) =>
          let parents := (splitOrders s.buddy n).map fun order => (p, order)
          return ⟨buddy, ⟨p, n, (buddy.page p).property⟩ :: s.live, parents ++ s.parents⟩
  | .free g => do
      let buddy ← buddyFreePages pages s.buddy g.page g.pages
      return { s with buddy := buddy, live := s.live.erase g }

def step (pages : FrameArray) (s : System) (event : Call) : Option System :=
  match s.call pages event with
  | .ok next => some next
  | .error _ => none

-- Live blocks are given back with the size that they were granted.
def Enabled (s : System) : Call → Prop
  | .alloc n => 0 < n
  | .free g => g ∈ s.live

instance (s : System) : (event : Call) → Decidable (s.Enabled event)
  | .alloc n => inferInstanceAs (Decidable (0 < n))
  | .free g => inferInstanceAs (Decidable (g ∈ s.live))

end System

-- A region of the frame array that buddy_init_memmap gets.
structure Region (pages : FrameArray) where
  base : Nat
  n : Nat
  positive : 0 < n
  inside : nbase ≤ base ∧ base + n ≤ pages.npage

def boot {pages : FrameArray} (region : Region pages) : Except Fault System := do
  let buddy ← buddyInitMemmap (buddyInit pages) region.base region.n
  return ⟨buddy, [], []⟩

end Ucore.Pmm.Buddy
