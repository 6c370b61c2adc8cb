import Ucore.Lib.Run
import Ucore.Slob.SlobSound

set_option autoImplicit false

namespace Ucore.Slob

open Ucore.Lib

-- What a caller of kmalloc holds: a block with a header, or pages with a bigblock_t.
inductive Grant where
  | small (header units size : Nat)
  | big (node order pages size : Nat)
deriving DecidableEq, Repr

namespace Grant

def pointer : Grant → Nat
  | .small header _ _ => header + slobUnit
  | .big _ _ pages _ => pages

def size : Grant → Nat
  | .small _ _ size => size
  | .big _ _ _ size => size

-- What it takes of the memory of slob_alloc.
def held : Grant → Block
  | .small header units _ => ⟨header, units * slobUnit⟩
  | .big node _ _ _ => ⟨node, slobUnits bigblockSize * slobUnit⟩

-- The bytes that are the caller's.
def usable : Grant → Block
  | .small header units _ => ⟨header + slobUnit, (units - 1) * slobUnit⟩
  | .big _ order pages _ => ⟨pages, pageSize * 2 ^ order⟩

def bigBlock : Grant → Option BigBlock
  | .small _ _ _ => none
  | .big node order pages _ => some ⟨node, order, pages⟩

def bigPages : Grant → List Block
  | .small _ _ _ => []
  | .big _ order pages _ => [⟨pages, pageSize * 2 ^ order⟩]

def bigAt (block : Nat) (grant : Grant) : Bool := grant.bigBlock.any fun bb => bb.pages = block

end Grant

-- The heap with what its callers hold and the pages that slob_alloc has got.
structure System where
  heap : Heap
  live : List Grant
  pages : List Nat

inductive Call where
  | kmalloc (size : Nat) (page pages : Option Nat)
  | kfree (block : Nat)
deriving DecidableEq, Repr

-- What a pointer stands for when kmalloc returns it.
def granted (heap : Heap) (size pointer : Nat) : Grant :=
  match heap.bigblocks.find? fun bb => pageSize - slobUnit ≤ size ∧ bb.pages = pointer with
  | some bb => .big bb.addr bb.order bb.pages size
  | none => .small (pointer - slobUnit) (heap.units (pointer - slobUnit)) size

-- The pointer of an empty request may be the address of a big block; then kfree takes
-- the big block first.
def release (live : List Grant) (block : Nat) : List Grant :=
  if live.any (Grant.bigAt block) then live.eraseP (Grant.bigAt block) else live.eraseP fun grant => grant.pointer = block

def System.step (s : System) : Call → Option System
  | .kmalloc size page pages =>
      (kmalloc loopBound s.heap size page pages).toOption.map fun (pointer, heap, left) =>
        ⟨heap, (pointer.map (granted heap size)).toList ++ s.live, if left = [] then page.toList ++ s.pages else s.pages⟩
  | .kfree block =>
      if s.live.any fun grant => grant.pointer = block then
        (kfree loopBound s.heap block).toOption.map fun heap => ⟨heap, release s.live block, s.pages⟩
      else none

def System.boot (arena : Nat) (units next : Nat → Nat) : System := ⟨Heap.boot arena units next, [], []⟩

def regionOf (arena : Nat) (pages : List Nat) : List Block := pages.map (fun a => ⟨a, pageSize⟩) ++ [⟨arena, slobUnit⟩]

-- alloc_pages gives whole pages that are not in use.
def Given (arena : Nat) (s : System) : Call → Prop
  | .kmalloc size page pages =>
      (∀ a ∈ page, Fresh (regionOf arena s.pages ++ s.live.flatMap Grant.bigPages) a pageSize) ∧
        ∀ a ∈ pages, Fresh (page.toList.map (fun a => ⟨a, pageSize⟩) ++ (regionOf arena s.pages ++ s.live.flatMap Grant.bigPages)) a (pageSize * 2 ^ findOrder size)
  | .kfree _ => True

-- The units of the block that slob_alloc is asked for.
def needed (size : Nat) : Nat := if size < pageSize - slobUnit then slobUnits (size + slobUnit) else slobUnits bigblockSize

-- The block that kfree gives to slob_free.
def freedBlock (h : Heap) (block : Nat) : Block :=
  match h.bigblocks.find? fun bb => block % pageSize = 0 ∧ bb.pages = block with
  | some bb => ⟨bb.addr, slobUnits bigblockSize * slobUnit⟩
  | none => ⟨block - slobUnit, h.units (block - slobUnit) * slobUnit⟩

-- Nothing is taken from the only block of the list, and nothing joins it from below;
-- a page leaves some block apart.
def SpareBlocks (s : System) (blocks : List Block) : Call → Prop
  | .kmalloc size page _ =>
      (∀ d, blocks = [d] → s.heap.units d.addr < needed size) ∧ ∀ a ∈ page, ∃ d ∈ blocks, d.stop ≠ a ∧ a + pageSize ≠ d.addr
  | .kfree block => ∀ d, blocks = [d] → (freedBlock s.heap block).stop ≠ d.addr

structure Inv (arena : Nat) (s : System) (blocks : List Block) : Prop where
  sound : Sound s.heap blocks (s.live.map Grant.held) (regionOf arena s.pages)
  headers : ∀ header units size, Grant.small header units size ∈ s.live → s.heap.units header = units ∧ units = slobUnits (size + slobUnit)
  orders : ∀ node order pages size, Grant.big node order pages size ∈ s.live → order = findOrder size ∧ pages % pageSize = 0
  bigs : s.heap.bigblocks = s.live.filterMap Grant.bigBlock
  bigApart : (s.live.flatMap Grant.bigPages).Pairwise Block.Apart
  bigOutside : ∀ p, Covers (s.live.flatMap Grant.bigPages) p → ¬ Covers (regionOf arena s.pages) p
  regionApart : (regionOf arena s.pages).Pairwise Block.Apart

-- The list is a matter of the fields of its blocks alone.
theorem sound_congr (h other : Heap) (blocks held region : List Block) (sound : Sound h blocks held region) (head : other.slobfree = h.slobfree)
    (nexts : ∀ a, Covers blocks a → other.next a = h.next a) (units : ∀ a, Covers blocks a → other.units a = h.units a) :
    Sound other blocks held region := by
  have onList := addr_covered blocks sound.listed.nonempty
  refine ⟨⟨cycle_congr h.next other.next _ sound.listed.cycle fun a member => nexts a (onList a member), head ▸ sound.listed.head, fun b member => ?_,
    sound.listed.ascending, sound.listed.nonempty⟩, sound.whole, sound.heldPositive, sound.heldApart, sound.heldFree, sound.inside, sound.counted, sound.bounded⟩
  rw [units b.addr (onList _ (List.mem_map_of_mem member))]
  exact sound.listed.sized b member

theorem sound_perm (h : Heap) (blocks held others region : List Block) (sound : Sound h blocks held region) (shape : held.Perm others) :
    Sound h blocks others region := by
  have covers : ∀ p, Covers others p ↔ Covers held p := fun p =>
    exists_congr fun b => and_congr_left fun _ => shape.mem_iff.symm
  refine ⟨sound.listed, sound.whole, fun b member => sound.heldPositive b (shape.mem_iff.mpr member),
    (shape.pairwise_iff fun apart => Std.Symm.symm _ _ apart).mp sound.heldApart, fun p covered => sound.heldFree p ((covers p).mp covered),
    fun p either => sound.inside p (either.imp_right (covers p).mp), ?_, sound.bounded⟩
  have same : total others = total held := (shape.map Block.size).sum_eq.symm
  rw [same]
  exact sound.counted

-- The arena is a block of the list of its own, and no page begins or ends at it.
structure ArenaFree (arena : Nat) (pages : List Nat) (blocks : List Block) : Prop where
  listed : ⟨arena, slobUnit⟩ ∈ blocks
  away : ∀ a ∈ pages, a ≠ arena + slobUnit ∧ a + pageSize ≠ arena

theorem arena_untouched (arena : Nat) (h : Heap) (blocks held : List Block) (pages : List Nat) (b : Block)
    (sound : Sound h blocks (b :: held) (regionOf arena pages)) (apart : (regionOf arena pages).Pairwise Block.Apart) (free : ArenaFree arena pages blocks) :
    b.stop ≠ arena ∧ arena + slobUnit ≠ b.addr := by
  have positive : 0 < slobUnit := by decide
  refine part_touches (pages.map fun a => ⟨a, pageSize⟩) ⟨arena, slobUnit⟩ b positive (sound.heldPositive b (by simp)) (fun p holds => ?_) (fun p holds covered => ?_)
    fun c member => ?_
  · have inHeld : Covers (b :: held) p := (covers_cons b held p).mpr (.inl holds)
    have notFree := sound.heldFree p inHeld
    rcases (covers_append _ _ p).mp (sound.inside p (.inr inHeld)) with inPages | inArena
    · exact inPages
    · obtain ⟨c, member, there⟩ := inArena
      rw [List.mem_singleton.mp member] at there
      exact absurd ⟨_, free.listed, there⟩ notFree
  · obtain ⟨c, member, there⟩ := covered
    exact (List.pairwise_append.mp apart).2.2 c member ⟨arena, slobUnit⟩ (by simp) p ⟨there, holds⟩
  · obtain ⟨a, inPages, rfl⟩ := List.mem_map.mp member
    obtain ⟨notAfter, notBefore⟩ := free.away a inPages
    exact ⟨notBefore, fun meet => notAfter meet.symm⟩

def pagesLeft (s : System) (page : Option Nat) (left : List (Option Nat)) : List Nat := if left = [] then page.toList ++ s.pages else s.pages

-- What slob_alloc has done to the system when it returns the block at c.
structure Allocated (arena : Nat) (s : System) (blocks : List Block) (page : Option Nat) (units c : Nat) (heap : Heap) (pages : List Nat)
    (blocks' : List Block) : Prop where
  sound : Sound heap blocks' (⟨c, units * slobUnit⟩ :: s.live.map Grant.held) (regionOf arena pages)
  header : heap.units c = units
  frame : ∀ p, Covers (s.live.map Grant.held) p → heap.units p = s.heap.units p
  bigs : heap.bigblocks = s.heap.bigblocks
  outside : ∀ p, Covers (s.live.flatMap Grant.bigPages) p → ¬ Covers (regionOf arena pages) p
  apart : (regionOf arena pages).Pairwise Block.Apart
  arenaKept : 2 ≤ units → (∀ a ∈ page, a ≠ arena + slobUnit ∧ a + pageSize ≠ arena) → ArenaFree arena s.pages blocks → ArenaFree arena pages blocks'
  lone : ∀ d, blocks' = [d] → c + units * slobUnit ≠ d.addr

theorem alloc_call (arena : Nat) (s : System) (blocks : List Block) (inv : Inv arena s blocks) (size : Nat) (page : Option Nat)
    (small : size + slobUnit < pageSize) (positive : 0 < size) (spare : ∀ d, blocks = [d] → s.heap.units d.addr < slobUnits size)
    (fresh : ∀ a ∈ page, Fresh (regionOf arena s.pages ++ s.live.flatMap Grant.bigPages) a pageSize)
    (apart : ∀ a ∈ page, ∃ d ∈ blocks, d.stop ≠ a ∧ a + pageSize ≠ d.addr) :
    (page = none ∧ slobAlloc loopBound s.heap size 0 [page] = .ok (none, s.heap, [])) ∨
      ∃ c heap left blocks', slobAlloc loopBound s.heap size 0 [page] = .ok (some c, heap, left) ∧
        Allocated arena s blocks page (slobUnits size) c heap (pagesLeft s page left) blocks' := by
  have freshRegion : ∀ a ∈ page, Fresh (regionOf arena s.pages) a pageSize := fun a given =>
    ⟨(fresh a given).aligned, (fresh a given).bounded, fun p holds covered => (fresh a given).apart p holds ((covers_append _ _ p).mpr (.inl covered))⟩
  rcases alloc_sound s.heap blocks _ _ size page inv.sound small positive spare freshRegion apart with
    ⟨nothing, ran, _⟩ | ⟨c, heap, blocks', region', left, ran, pages, sound, header, frame, bigs, kept, lone⟩
  · exact .inl ⟨nothing, ran⟩
  · refine .inr ⟨c, heap, left, blocks', ran, ?_⟩
    have arenaSize : 2 ≤ slobUnits size → slobUnit < slobUnits size * slobUnit := fun two => by
      simp only [slobUnit]
      omega
    rcases pages with ⟨rfl, rfl⟩ | ⟨rfl, a, given, rfl⟩
    · have same : pagesLeft s page [page] = s.pages := if_neg (by simp)
      rw [same]
      refine ⟨sound, header, frame, bigs, inv.bigOutside, inv.regionApart, fun two away free => ⟨?_, free.away⟩, lone⟩
      exact kept ⟨arena, slobUnit⟩ free.listed (arenaSize two) fun a given =>
        ⟨fun meet => (away a given).1 meet.symm, (away a given).2⟩
    · obtain rfl : page = some a := given
      have same : pagesLeft s (some a) [] = a :: s.pages := rfl
      rw [same]
      refine ⟨sound, header, frame, bigs, fun p inBig inRegion => ?_, ?_, fun two away free => ⟨?_, fun x member => ?_⟩, lone⟩
      · rcases (covers_cons _ _ p).mp inRegion with new | old
        · exact (fresh a rfl).apart p new ((covers_append _ _ p).mpr (.inr inBig))
        · exact inv.bigOutside p inBig old
      · exact List.pairwise_cons.mpr ⟨fun c member p both => (freshRegion a rfl).apart p both.1 ⟨c, member, both.2⟩, inv.regionApart⟩
      · exact kept ⟨arena, slobUnit⟩ free.listed (arenaSize two) fun x given =>
          ⟨fun meet => (away x given).1 meet.symm, (away x given).2⟩
      · rcases List.mem_cons.mp member with here | old
        · exact here ▸ away a rfl
        · exact free.away x old

end Ucore.Slob
