import Ucore.Lib.Ring

set_option autoImplicit false

namespace Ucore.Pmm

open Ucore.Lib

-- Page frames are named by their index in the array pages. A list node is the
-- list head of free_area or the page_link of a page.
abbrev PageId := Nat

inductive ListNode where
  | freeList
  | pageLink (page : PageId)
deriving DecidableEq, Repr

-- struct Page; of flags the two bits PG_reserved and PG_property are in use.
structure Page where
  ref : Int
  pgReserved : Bool
  pgProperty : Bool
  property : Nat
deriving DecidableEq, Repr

structure PmmState where
  page : PageId → Page
  links : Links ListNode
  nrFree : Nat

inductive Fault where
  | assertFailed
  | outOfFuel
deriving DecidableEq, Repr

-- property and nr_free are unsigned int, block sizes are size_t.
def uint (n : Nat) : Nat := n % 2 ^ 32

def PmmState.setPage (s : PmmState) (page : PageId) (value : Page) : PmmState := { s with page := Function.update s.page page value }

-- list_add_before and list_add: __list_add next to a node that is in a list.
def listAddBefore (links : Links ListNode) (listelm elm : ListNode) : Links ListNode :=
  links.linkBetween elm (links.prev listelm) listelm

def listAdd (links : Links ListNode) (listelm elm : ListNode) : Links ListNode :=
  links.linkBetween elm listelm (links.next listelm)

def listDel (links : Links ListNode) (listelm : ListNode) : Links ListNode :=
  links.unlinkBetween (links.prev listelm) (links.next listelm)

def listInit (links : Links ListNode) (elm : ListNode) : Links ListNode := (links.setNext elm elm).setPrev elm elm

def listEmpty (links : Links ListNode) (list : ListNode) : Bool := links.next list = list

def defaultInit (s : PmmState) : PmmState := { s with links := listInit s.links .freeList, nrFree := 0 }

-- The page loop of default_init_memmap.
def initPages (page : PageId → Page) (p : PageId) : Nat → Except Fault (PageId → Page)
  | 0 => .ok page
  | count + 1 =>
      if (page p).pgReserved then initPages (Function.update page p ⟨0, false, false, 0⟩) (p + 1) count
      else .error .assertFailed

-- The page loop of default_free_pages.
def clearPages (page : PageId → Page) (p : PageId) : Nat → Except Fault (PageId → Page)
  | 0 => .ok page
  | count + 1 =>
      if !(page p).pgReserved && !(page p).pgProperty then
        clearPages (Function.update page p { page p with pgReserved := false, pgProperty := false, ref := 0 }) (p + 1) count
      else .error .assertFailed

-- The while loop that looks for the place of base, from the node before le. It
-- goes on after an insertion at the tail, as the source does.
def insertLoop (base : PageId) (links : Links ListNode) (le : ListNode) : Nat → Except Fault (Links ListNode)
  | 0 => .error .outOfFuel
  | fuel + 1 =>
      match links.next le with
      | .freeList => .ok links
      | .pageLink page =>
          if base < page then .ok (listAddBefore links (.pageLink page) (.pageLink base))
          else if links.next (.pageLink page) = .freeList then
            insertLoop base (listAdd links (.pageLink page) (.pageLink base)) (.pageLink page) fuel
          else insertLoop base links (.pageLink page) fuel

def insertBlock (fuel : Nat) (base : PageId) (links : Links ListNode) : Except Fault (Links ListNode) :=
  if listEmpty links .freeList then .ok (listAdd links .freeList (.pageLink base))
  else insertLoop base links .freeList fuel

-- The common tail of init_memmap and free_pages up to the merging: base gets
-- the size and the flag, nr_free grows, the block is linked in.
def linkBlock (fuel : Nat) (base : PageId) (n : Nat) (s : PmmState) : Except Fault PmmState :=
  let headed := s.setPage base { s.page base with property := uint n, pgProperty := true }
  (insertBlock fuel base s.links).map fun links => { headed with links := links, nrFree := uint (s.nrFree + n) }

def defaultInitMemmap (fuel : Nat) (s : PmmState) (base : PageId) (n : Nat) : Except Fault PmmState :=
  if 0 < n then
    (initPages s.page base n).bind fun page => linkBlock fuel base n { s with page := page }
  else .error .assertFailed

-- The search of default_alloc_pages, from the node before le.
def allocLoop (n : Nat) (s : PmmState) (le : ListNode) : Nat → Except Fault (Option PageId)
  | 0 => .error .outOfFuel
  | fuel + 1 =>
      match s.links.next le with
      | .freeList => .ok none
      | .pageLink p => if n ≤ (s.page p).property then .ok (some p) else allocLoop n s (.pageLink p) fuel

def splitBlock (s : PmmState) (page : PageId) (n : Nat) : PmmState :=
  let prev := s.links.prev (.pageLink page)
  let deleted := { s with links := listDel s.links (.pageLink page) }
  let rest :=
    if n < (s.page page).property then
      let p := page + n
      { deleted.setPage p { s.page p with property := uint ((s.page page).property - n), pgProperty := true } with
        links := listAdd deleted.links prev (.pageLink p) }
    else deleted
  { rest.setPage page { rest.page page with pgProperty := false } with nrFree := uint (2 ^ 32 + s.nrFree - uint n) }

def defaultAllocPages (fuel : Nat) (s : PmmState) (n : Nat) : Except Fault (Option PageId × PmmState) :=
  if 0 < n then
    if s.nrFree < n then .ok (none, s)
    else (allocLoop n s .freeList fuel).map fun
      | none => (none, s)
      | some page => (some page, splitBlock s page n)
  else .error .assertFailed

-- What both merges write: the block at low takes in the block at high, which
-- leaves the list.
def absorb (s : PmmState) (low high : PageId) : PmmState :=
  let grown := s.setPage low { s.page low with property := uint ((s.page low).property + (s.page high).property) }
  let cleared := grown.setPage high { grown.page high with pgProperty := false }
  { cleared with links := listDel s.links (.pageLink high) }

-- Merging with the block before base: the new base and the state.
def mergeBefore (s : PmmState) (base : PageId) : PageId × PmmState :=
  match s.links.prev (.pageLink base) with
  | .freeList => (base, s)
  | .pageLink p => if p + (s.page p).property = base then (p, absorb s p base) else (base, s)

def mergeAfter (s : PmmState) (base : PageId) : PmmState :=
  match s.links.next (.pageLink base) with
  | .freeList => s
  | .pageLink p => if base + (s.page base).property = p then absorb s base p else s

def defaultFreePages (fuel : Nat) (s : PmmState) (base : PageId) (n : Nat) : Except Fault PmmState :=
  if 0 < n then
    (clearPages s.page base n).bind fun page =>
      (linkBlock fuel base n { s with page := page }).map fun linked =>
        let (merged, joined) := mergeBefore linked base
        mergeAfter joined merged
  else .error .assertFailed

end Ucore.Pmm
