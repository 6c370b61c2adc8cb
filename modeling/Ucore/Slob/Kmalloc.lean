import Mathlib.Logic.Function.Basic
import Mathlib.Tactic.Common
import Ucore.Lib.Sizes

set_option autoImplicit false

namespace Ucore.Slob

inductive Fault where
  | assertFailed
  | outOfFuel
  | outOfPages
deriving DecidableEq, Repr

def pageSize : Nat := 4096

-- sizeof(slob_t) and sizeof(bigblock_t).
def slobUnit : Nat := 16
def bigblockSize : Nat := 24

def slobUnits (size : Nat) : Nat := (size + slobUnit - 1) / slobUnit

structure BigBlock where
  addr : Nat
  order : Nat
  pages : Nat
deriving DecidableEq, Repr

-- The slob_t at every address, the head of the free list and the list of big blocks.
structure Heap where
  units : Nat → Nat
  next : Nat → Nat
  slobfree : Nat
  bigblocks : List BigBlock

namespace Heap

def setUnits (h : Heap) (block : Nat) (units : Nat) : Heap := { h with units := Function.update h.units block units }

def setNext (h : Heap) (block target : Nat) : Heap := { h with next := Function.update h.next block target }

-- arena is the only block, and it is its own successor.
def boot (arena : Nat) (units : Nat → Nat) (next : Nat → Nat) : Heap :=
  ⟨Function.update units arena 1, Function.update next arena arena, arena, []⟩

end Heap

def alignUp (addr size : Nat) : Nat := (addr + size - 1) / size * size

-- How many units the block at cur gives up in front to be aligned.
def delta (cur : Nat) (align : Nat) : Nat := if align = 0 then 0 else (alignUp cur align - cur) / slobUnit

-- The scan of slob_alloc from the head of the list round to it: the first block with
-- room enough and the block before it.
def scan (h : Heap) (align units : Nat) (prev cur : Nat) : Nat → Except Fault (Option (Nat × Nat))
  | 0 => .error .outOfFuel
  | fuel + 1 =>
      if units + delta cur align ≤ h.units cur then .ok (some (prev, cur))
      else if cur = h.slobfree then .ok none
      else scan h align units cur (h.next cur) fuel

-- The writes of slob_alloc in program order: fragment the head to align, then unlink
-- or fragment the block.
def fragmentHead (h : Heap) (align : Nat) (prev cur : Nat) : Heap × Nat × Nat :=
  let aligned := cur + delta cur align * slobUnit
  if delta cur align = 0 then (h, prev, cur)
  else
    let h := h.setUnits aligned (h.units cur - delta cur align)
    let h := h.setNext aligned (h.next cur)
    let h := h.setNext cur aligned
    (h.setUnits cur (delta cur align), cur, aligned)

def unlink (h : Heap) (units : Nat) (prev cur : Nat) : Heap :=
  if h.units cur = units then h.setNext prev (h.next cur)
  else
    let h := h.setNext prev (cur + units * slobUnit)
    let h := h.setUnits (h.next prev) (h.units cur - units)
    let h := h.setNext (h.next prev) (h.next cur)
    h.setUnits cur units

def take (h : Heap) (align units : Nat) (prev cur : Nat) : Nat × Heap :=
  let (h, prev, cur) := fragmentHead h align prev cur
  (cur, { unlink h units prev cur with slobfree := prev })

-- The block goes between cur and its successor, or round the end of the list.
def Reinsert (h : Heap) (b cur : Nat) : Prop :=
  (cur < b ∧ b < h.next cur) ∨ (h.next cur ≤ cur ∧ (cur < b ∨ b < h.next cur))

instance (h : Heap) (b cur : Nat) : Decidable (Reinsert h b cur) :=
  inferInstanceAs (Decidable ((cur < b ∧ b < h.next cur) ∨ (h.next cur ≤ cur ∧ (cur < b ∨ b < h.next cur))))

def reinsertionPoint (h : Heap) (b cur : Nat) : Nat → Except Fault Nat
  | 0 => .error .outOfFuel
  | fuel + 1 => if Reinsert h b cur then .ok cur else reinsertionPoint h b (h.next cur) fuel

def joinNext (h : Heap) (b cur : Nat) : Heap :=
  if b + h.units b * slobUnit = h.next cur then
    let h := h.setUnits b (h.units b + h.units (h.next cur))
    h.setNext b (h.next (h.next cur))
  else h.setNext b (h.next cur)

def joinPrev (h : Heap) (b cur : Nat) : Heap :=
  if cur + h.units cur * slobUnit = b then
    let h := h.setUnits cur (h.units cur + h.units b)
    h.setNext cur (h.next b)
  else h.setNext cur b

-- No caller gives slob_free a null block.
def slobFree (bound : Nat) (h : Heap) (b : Nat) (size : Nat) : Except Fault Heap :=
  let h := if size ≠ 0 then h.setUnits b (slobUnits size) else h
  (reinsertionPoint h b h.slobfree bound).map fun cur => { joinPrev (joinNext h b cur) b cur with slobfree := cur }

-- What alloc_pages answers comes in pages, in order; the loop asks for one page each
-- time the scan has been round in vain.
def allocLoop (bound size align : Nat) : List (Option Nat) → Heap → Except Fault (Option Nat × Heap × List (Option Nat))
  | [], h =>
      (scan h align (slobUnits size) h.slobfree (h.next h.slobfree) bound).bind fun
        | some (prev, cur) => .ok (some (take h align (slobUnits size) prev cur).1, (take h align (slobUnits size) prev cur).2, [])
        | none => if size = pageSize then .ok (none, h, []) else .error .outOfPages
  | page :: pages, h =>
      (scan h align (slobUnits size) h.slobfree (h.next h.slobfree) bound).bind fun
        | some (prev, cur) => .ok (some (take h align (slobUnits size) prev cur).1, (take h align (slobUnits size) prev cur).2, page :: pages)
        | none =>
            if size = pageSize then .ok (none, h, page :: pages)
            else match page with
              | none => .ok (none, h, pages)
              | some page => (slobFree bound h page pageSize).bind (allocLoop bound size align pages)

def slobAlloc (bound : Nat) (h : Heap) (size align : Nat) (pages : List (Option Nat)) : Except Fault (Option Nat × Heap × List (Option Nat)) :=
  if size + slobUnit < pageSize then allocLoop bound size align pages h else .error .assertFailed

-- The conversion of a size_t to an int.
def toInt (size : Nat) : Int := if size % 2 ^ 32 < 2 ^ 31 then size % 2 ^ 32 else size % 2 ^ 32 - 2 ^ 32

def orderLoop (size : Int) (order : Nat) : Nat → Nat
  | 0 => order
  | fuel + 1 => if 4096 < size then orderLoop (size / 2) (order + 1) fuel else order

-- An int is shifted down to 4096 in fewer than 31 rounds.
def findOrder (size : Nat) : Nat := orderLoop (toInt size) 0 31

-- The first answer is for the page of slob_alloc, the second for the pages of a big
-- block. A bigblock_t lies over the slob_t at its address.
def kmalloc (bound : Nat) (h : Heap) (size : Nat) (page pages : Option Nat) : Except Fault (Option Nat × Heap × List (Option Nat)) :=
  if size < pageSize - slobUnit then
    (slobAlloc bound h (size + slobUnit) 0 [page]).map fun (m, h, left) => (m.map (· + slobUnit), h, left)
  else
    (slobAlloc bound h bigblockSize 0 [page]).bind fun
      | (none, h, left) => .ok (none, h, left)
      | (some bb, h, left) =>
          let order := findOrder size
          let h := (h.setUnits bb order).setNext bb (pages.getD 0)
          match pages with
          | some pages => .ok (some pages, { h with bigblocks := ⟨bb, order, pages⟩ :: h.bigblocks }, left)
          | none => (slobFree bound h bb bigblockSize).map fun h => (none, h, left)

def kfree (bound : Nat) (h : Heap) (block : Nat) : Except Fault Heap :=
  if block % pageSize = 0 then
    match h.bigblocks.find? fun bb => bb.pages = block with
    | some bb => slobFree bound { h with bigblocks := h.bigblocks.eraseP fun bb => bb.pages = block } bb.addr bigblockSize
    | none => slobFree bound h (block - slobUnit) 0
  else slobFree bound h (block - slobUnit) 0

end Ucore.Slob
