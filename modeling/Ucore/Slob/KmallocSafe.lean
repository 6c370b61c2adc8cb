import Ucore.Slob.KmallocSteps

set_option autoImplicit false

namespace Ucore.Slob

open Ucore.Lib

-- One call on a heap that is well formed.
theorem step_inv (arena : Nat) (s next : System) (blocks : List Block) (call : Call) (inv : Inv arena s blocks) (given : Given arena s call)
    (spare : SpareBlocks s blocks call) (stepped : s.step call = some next) :
    ∃ blocks', Inv arena next blocks' ∧
      ((∀ size page pages, call = .kmalloc size page pages → 2 ≤ needed size ∧ ∀ a ∈ page, a ≠ arena + slobUnit ∧ a + pageSize ≠ arena) →
        ArenaFree arena s.pages blocks → ArenaFree arena next.pages blocks') := by
  cases call with
  | kmalloc size page pages =>
      by_cases fits : size + 2 * slobUnit < pageSize ∨ pageSize - slobUnit ≤ size
      · obtain ⟨pointer, heap, left, blocks', ran, after, _, _, kept⟩ := kmalloc_inv arena s blocks inv size page pages fits given spare
        have same : next = ⟨heap, (pointer.map (granted heap size)).toList ++ s.live, pagesLeft s page left⟩ := by
          simp only [System.step, ran, Except.toOption, Option.map_some, Option.some.injEq] at stepped
          exact stepped.symm
        subst same
        exact ⟨blocks', after, fun away free => kept (away size page pages rfl).1 (away size page pages rfl).2 free⟩
      · have small : size < pageSize - slobUnit := by omega
        have exceeds : ¬ size + slobUnit + slobUnit < pageSize := by omega
        simp [System.step, kmalloc, small, slobAlloc, exceeds, Except.map, Except.toOption] at stepped
  | kfree block =>
      by_cases held : (s.live.any fun grant => grant.pointer = block) = true
      · obtain ⟨heap, blocks', ran, after, kept⟩ := kfree_inv arena s blocks inv block held spare
        have same : next = ⟨heap, release s.live block, s.pages⟩ := by
          simp only [System.step, if_pos held, ran, Except.toOption, Option.map_some, Option.some.injEq] at stepped
          exact stepped.symm
        subst same
        exact ⟨blocks', after, fun _ free => kept free⟩
      · simp [System.step, held] at stepped

theorem boot_inv (arena : Nat) (units next : Nat → Nat) (bounded : arena + slobUnit ≤ 2 ^ 64) :
    Inv arena (System.boot arena units next) [⟨arena, slobUnit⟩] ∧ ArenaFree arena [] [⟨arena, slobUnit⟩] := by
  refine ⟨⟨⟨⟨?_, ?_, ?_, List.pairwise_singleton _ _, ?_⟩, ?_, ?_, List.Pairwise.nil, ?_, ?_, ?_, ?_⟩, ?_, ?_, rfl, List.Pairwise.nil, ?_,
    List.pairwise_singleton _ _⟩, by simp, by simp⟩
  · simp [Lib.Cycle, System.boot, Heap.boot]
  · simp [System.boot, Heap.boot]
  · simp [System.boot, Heap.boot]
  · simp [Lib.Nonempty, slobUnit]
  · simp [Coalesced, Block.stop, slobUnit]
  · simp [Lib.Nonempty, System.boot]
  · simp [System.boot, covers_nil]
  · simp [System.boot, covers_nil, regionOf]
  · simp [System.boot, regionOf, total_cons, total_nil]
  · simpa [System.boot, regionOf, Block.stop] using bounded
  · simp [System.boot]
  · simp [System.boot]
  · simp [System.boot, covers_nil]

-- A call that a caller may make, with requests of a byte at least, and pages that do
-- not touch the arena.
def Positive (arena : Nat) : Call → Prop
  | .kmalloc size page _ => 1 ≤ size ∧ ∀ a ∈ page, a ≠ arena + slobUnit ∧ a + pageSize ≠ arena
  | .kfree _ => True

theorem needed_two (size : Nat) (positive : 1 ≤ size) : 2 ≤ needed size := by
  unfold needed
  split
  · simp only [slobUnits, slobUnit]
    omega
  · decide

-- With the arena on the list there is always a block to spare.
theorem arena_spares (arena : Nat) (s : System) (blocks : List Block) (call : Call) (inv : Inv arena s blocks) (free : ArenaFree arena s.pages blocks)
    (positive : Positive arena call) (valid : ∀ block, call = .kfree block → (s.live.any fun grant => grant.pointer = block) = true) :
    SpareBlocks s blocks call := by
  cases call with
  | kmalloc size page pages =>
      refine ⟨?_, fun a given => ⟨⟨arena, slobUnit⟩, free.listed, fun meet => (positive.2 a given).1 meet.symm, (positive.2 a given).2⟩⟩
      rintro d rfl
      have here := List.mem_singleton.mp free.listed
      have sized := inv.sound.listed.sized d (by simp)
      have two := needed_two size positive.1
      rw [← here] at sized ⊢
      replace sized : 16 = s.heap.units arena * 16 := sized
      show s.heap.units arena < needed size
      omega
  | kfree block =>
      rintro d rfl
      obtain ⟨first, grant, last, heap, size, freed⟩ := freed_grant arena s [d] inv block (valid block rfl)
      have started := freed_started arena s [d] inv block first last grant heap size freed
      obtain ⟨notBefore, _⟩ := arena_untouched arena heap [d] _ _ _ started inv.regionApart free
      rw [freed.freed, ← List.mem_singleton.mp free.listed]
      exact notBefore

def Away (arena : Nat) (s : System) (call : Call) : Prop := Given arena s call ∧ Positive arena call

structure ArenaInv (arena : Nat) (s : System) (blocks : List Block) : Prop where
  inv : Inv arena s blocks
  free : ArenaFree arena s.pages blocks

theorem step_valid (s next : System) (call : Call) (stepped : s.step call = some next) :
    ∀ block, call = .kfree block → (s.live.any fun grant => grant.pointer = block) = true := by
  rintro block rfl
  by_contra missing
  simp [System.step, missing] at stepped

theorem arena_step (arena : Nat) (s next : System) (call : Call) (inv : ∃ blocks, ArenaInv arena s blocks) (away : Away arena s call)
    (stepped : s.step call = some next) : ∃ blocks, ArenaInv arena next blocks := by
  obtain ⟨blocks, inv, free⟩ := inv
  have spare := arena_spares arena s blocks call inv free away.2 (step_valid s next call stepped)
  obtain ⟨blocks', after, kept⟩ := step_inv arena s next blocks call inv away.1 spare stepped
  refine ⟨blocks', after, kept (fun size page pages same => ?_) free⟩
  subst same
  exact ⟨needed_two size away.2.1, away.2.2⟩

theorem arena_run (arena : Nat) (units next : Nat → Nat) (bounded : arena + slobUnit ≤ 2 ^ 64) (calls : List Call) (s : System)
    (away : Throughout System.step (Away arena) (System.boot arena units next) calls)
    (ran : run System.step (System.boot arena units next) calls = some s) : ∃ blocks, ArenaInv arena s blocks := by
  obtain ⟨inv, free⟩ := boot_inv arena units next bounded
  exact run_invariant System.step (Away arena) (fun s => ∃ blocks, ArenaInv arena s blocks)
    (fun s call next inv away stepped => arena_step arena s next call inv away stepped) calls (System.boot arena units next) s
    ⟨[⟨arena, slobUnit⟩], inv, free⟩ away ran

-- The requests of the small kind that pass the assertion of slob_alloc.
def SmallCall : Call → Prop
  | .kmalloc size _ _ => 1 ≤ size ∧ size < pageSize - 2 * slobUnit
  | .kfree _ => True

def unitsOf : Grant → Nat
  | .small _ units _ => units
  | .big _ _ _ _ => slobUnits bigblockSize

-- The free list and the blocks in use, in every state of a run.
structure SlobInvariant (arena : Nat) (s : System) (blocks : List Block) : Prop where
  circular : Cycle s.heap.next (blocks.map Block.addr) ∧ s.heap.slobfree ∈ blocks.map Block.addr
  ascending : Ascending blocks
  sized : ∀ b ∈ blocks, b.size = s.heap.units b.addr * slobUnit ∧ 0 < b.size
  coalesced : Coalesced blocks
  apart : (blocks ++ s.live.map Grant.held).Pairwise Block.Apart
  conserved : (blocks.map fun b => s.heap.units b.addr).sum + (s.live.map unitsOf).sum = 1 + pageSize / slobUnit * s.pages.length
  usable : ∀ grant ∈ s.live, grant.size ≤ grant.usable.size ∧ ∃ header units size, grant = .small header units size ∧ s.heap.units header = units
  kmallocReturns : ∀ size page, 1 ≤ size → size < pageSize - 2 * slobUnit → Away arena s (.kmalloc size page none) →
    ∃ pointer heap left, kmalloc loopBound s.heap size page none = .ok (pointer, heap, left) ∧ (pointer = none → page = none)
  kfreeReturns : ∀ grant ∈ s.live, ∃ heap, kfree loopBound s.heap grant.pointer = .ok heap

theorem total_units (h : Heap) (blocks : List Block) (sized : ∀ b ∈ blocks, b.size = h.units b.addr * slobUnit) :
    total blocks = (blocks.map fun b => h.units b.addr).sum * slobUnit := by
  induction blocks with
  | nil => rfl
  | cons b rest ih =>
      rw [total_cons, ih fun c member => sized c (by simp [member]), sized b (by simp), List.map_cons, List.sum_cons, Nat.add_mul]

theorem total_held (live : List Grant) : total (live.map Grant.held) = (live.map unitsOf).sum * slobUnit := by
  induction live with
  | nil => rfl
  | cons grant rest ih =>
      rw [List.map_cons, total_cons, ih, List.map_cons, List.sum_cons, Nat.add_mul]
      cases grant with
      | small header units size => rfl
      | big node order pages size => rfl

theorem total_region (arena : Nat) (pages : List Nat) : total (regionOf arena pages) = slobUnit + pageSize * pages.length := by
  induction pages with
  | nil => rfl
  | cons a rest ih =>
      have split : total (regionOf arena (a :: rest)) = pageSize + total (regionOf arena rest) := total_cons _ _
      rw [split, ih, List.length_cons, Nat.mul_add]
      omega

-- With small requests only, all that is held is of the small kind.
def AllSmall (s : System) : Prop := ∀ grant ∈ s.live, ∃ header units size, grant = .small header units size

theorem small_step (s next : System) (call : Call) (small : AllSmall s) (request : SmallCall call) (stepped : s.step call = some next) : AllSmall next := by
  cases call with
  | kmalloc size page pages =>
      have below : size < pageSize - slobUnit := by
        have bound := request.2
        simp only [pageSize, slobUnit] at bound ⊢
        omega
      cases ran : kmalloc loopBound s.heap size page pages with
      | error fault => simp [System.step, ran, Except.toOption] at stepped
      | ok result =>
          obtain ⟨pointer, heap, left⟩ := result
          simp only [System.step, ran, Except.toOption, Option.map_some, Option.some.injEq] at stepped
          subst stepped
          intro grant member
          rcases List.mem_append.mp member with new | old
          · obtain ⟨p, _, rfl⟩ := Option.map_eq_some_iff.mp (Option.mem_toList.mp new)
            exact ⟨_, _, _, granted_small heap size p below⟩
          · exact small grant old
  | kfree block =>
      have shrinks : ∀ grant ∈ next.live, grant ∈ s.live := by
        by_cases held : (s.live.any fun grant => grant.pointer = block) = true
        · cases ran : kfree loopBound s.heap block with
          | error fault => simp [System.step, held, ran, Except.toOption] at stepped
          | ok heap =>
              simp only [System.step, if_pos held, ran, Except.toOption, Option.map_some, Option.some.injEq] at stepped
              subst stepped
              intro grant member
              simp only [release] at member
              split at member
              · exact List.mem_of_mem_eraseP member
              · exact List.mem_of_mem_eraseP member
        · simp [System.step, held] at stepped
      exact fun grant member => small grant (shrinks grant member)

theorem slob_invariant_of (arena : Nat) (s : System) (blocks : List Block) (both : ArenaInv arena s blocks) (small : AllSmall s) :
    SlobInvariant arena s blocks := by
  obtain ⟨inv, free⟩ := both
  have sound := inv.sound
  refine ⟨⟨sound.listed.cycle, sound.listed.head⟩, sound.listed.ascending, fun b member => ⟨sound.listed.sized b member, sound.listed.nonempty b member⟩,
    sound.whole, ?_, ?_, fun grant member => ?_, fun size page positive limit away => ?_, fun grant member => ?_⟩
  · refine List.pairwise_append.mpr ⟨ascending_pairwise_apart blocks sound.listed.ascending, sound.heldApart, fun b inList c inHeld p holds => ?_⟩
    exact sound.heldFree p ⟨c, inHeld, holds.2⟩ ⟨b, inList, holds.1⟩
  · have counted := sound.counted
    rw [total_units s.heap blocks sound.listed.sized, total_held, total_region] at counted
    simp only [slobUnit, pageSize] at counted ⊢
    omega
  · obtain ⟨header, units, size, rfl⟩ := small grant member
    obtain ⟨known, rounded⟩ := inv.headers header units size member
    refine ⟨?_, header, units, size, rfl, known⟩
    rw [rounded]
    simp only [Grant.size, Grant.usable, slobUnits, slobUnit]
    omega
  · have spare := arena_spares arena s blocks (.kmalloc size page none) inv free away.2 (fun block same => by cases same)
    have bound : size + 2 * slobUnit < pageSize := by
      simp only [pageSize, slobUnit] at limit ⊢
      omega
    obtain ⟨pointer, heap, left, _, ran, _, _, nothing, _⟩ := kmalloc_inv arena s blocks inv size page none (.inl bound) away.1 spare
    refine ⟨pointer, heap, left, ran, fun refused => ?_⟩
    rcases nothing refused with noPage | ⟨_, large⟩
    · exact noPage
    · simp only [pageSize, slobUnit] at bound large
      omega
  · have held : (s.live.any fun other => other.pointer = grant.pointer) = true := List.any_eq_true.mpr ⟨grant, member, by simp⟩
    have spare := arena_spares arena s blocks (.kfree grant.pointer) inv free trivial (fun block same => by
      obtain rfl : grant.pointer = block := by simpa using same
      exact held)
    obtain ⟨heap, _, ran, _⟩ := kfree_inv arena s blocks inv grant.pointer held spare
    exact ⟨heap, ran⟩

-- Any run of small requests and frees, with pages that are fresh and do not touch the arena.
theorem slob_invariant (arena : Nat) (units next : Nat → Nat) (bounded : arena + slobUnit ≤ 2 ^ 64) (calls : List Call) (s : System)
    (requests : ∀ call ∈ calls, SmallCall call) (away : Throughout System.step (Away arena) (System.boot arena units next) calls)
    (ran : run System.step (System.boot arena units next) calls = some s) : ∃ blocks, SlobInvariant arena s blocks := by
  obtain ⟨blocks, both⟩ := arena_run arena units next bounded calls s away ran
  have small := run_invariant System.step (fun _ call => SmallCall call) AllSmall
    (fun s call next small request stepped => small_step s next call small request stepped) calls (System.boot arena units next) s
    (by simp [AllSmall, System.boot]) (throughout_forall System.step SmallCall calls _ requests) ran
  exact ⟨blocks, slob_invariant_of arena s blocks both small⟩

-- A page is cut for two requests and put together again.
def smallCalls : List Call := [.kmalloc 100 (some 4096) none, .kmalloc 4063 (some 12288) none, .kmalloc 1 none none, .kfree 4112, .kfree 12304, .kfree 4240]

theorem page_given (arena a : Nat) (s : System) (size : Nat) (away : arena + slobUnit < a) (aligned : a % pageSize = 0) (bounded : a + pageSize ≤ 2 ^ 64)
    (pages : ∀ b ∈ s.pages, b + pageSize ≤ a) (noBig : s.live.flatMap Grant.bigPages = []) (positive : 1 ≤ size) : Away arena s (.kmalloc size (some a) none) := by
  refine ⟨⟨fun x given => ?_, by simp⟩, positive, fun x given => ?_⟩
  · obtain rfl : a = x := Option.some.inj given
    refine ⟨aligned, bounded, fun p holds covered => ?_⟩
    rw [noBig, List.append_nil, regionOf, covers_append] at covered
    rcases covered with ⟨c, member, inside⟩ | ⟨c, member, inside⟩
    · obtain ⟨b, inPages, rfl⟩ := List.mem_map.mp member
      have below := pages b inPages
      simp only [Block.Holds, Block.stop] at holds inside
      omega
    · rw [List.mem_singleton.mp member] at inside
      simp only [Block.Holds, Block.stop] at holds inside
      omega
  · obtain rfl : a = x := Option.some.inj given
    simp only [pageSize] at bounded ⊢
    omega

theorem slob_invariant_six : ∃ s, run System.step (System.boot 512 (fun _ => 0) fun _ => 0) smallCalls = some s ∧ s.pages = [12288, 4096] ∧
    s.live = [] ∧ ∃ blocks, SlobInvariant 512 s blocks := by
  have trace : (run System.step (System.boot 512 (fun _ => 0) fun _ => 0) smallCalls).map (fun s => (s.pages, s.live)) = some ([12288, 4096], []) := by
    decide +kernel
  obtain ⟨s, ran, facts⟩ := Option.map_eq_some_iff.mp trace
  obtain ⟨pages, live⟩ := Prod.mk.inj facts
  have away : Throughout System.step (Away 512) (System.boot 512 (fun _ => 0) fun _ => 0) smallCalls := by
    refine ⟨page_given 512 4096 _ 100 (by decide) (by decide) (by decide) (by simp [System.boot]) (by simp [System.boot]) (by decide), fun first taken => ?_⟩
    have known : (System.boot 512 (fun _ => 0) fun _ => 0).step (.kmalloc 100 (some 4096) none) = some first := taken
    have shape : ((System.boot 512 (fun _ => 0) fun _ => 0).step (.kmalloc 100 (some 4096) none)).map
        (fun s => (s.pages, s.live.flatMap Grant.bigPages)) = some ([4096], []) := by decide +kernel
    rw [known, Option.map_some, Option.some.injEq, Prod.mk.injEq] at shape
    refine ⟨page_given 512 12288 first 4063 (by decide) (by decide) (by decide) (by simp [shape.1, pageSize]) shape.2 (by decide), fun _ _ => ?_⟩
    refine ⟨⟨⟨by simp, by simp⟩, by decide, by simp⟩, fun _ _ => ⟨⟨trivial, trivial⟩, fun _ _ => ⟨⟨trivial, trivial⟩, fun _ _ => ⟨⟨trivial, trivial⟩, fun _ _ => trivial⟩⟩⟩⟩
  exact ⟨s, ran, pages, live, slob_invariant 512 (fun _ => 0) (fun _ => 0) (by decide) smallCalls s
    (by simp [smallCalls, SmallCall, pageSize, slobUnit]) away ran⟩

end Ucore.Slob
