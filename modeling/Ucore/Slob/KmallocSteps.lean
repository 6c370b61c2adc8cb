import Ucore.Slob.KmallocRuns

set_option autoImplicit false

namespace Ucore.Slob

open Ucore.Lib

theorem granted_small (heap : Heap) (size pointer : Nat) (small : size < pageSize - slobUnit) :
    granted heap size pointer = .small (pointer - slobUnit) (heap.units (pointer - slobUnit)) size := by
  have missed : heap.bigblocks.find? (fun bb => pageSize - slobUnit ≤ size ∧ bb.pages = pointer) = none := by
    refine List.find?_eq_none.mpr fun bb _ => ?_
    simp only [decide_eq_true_eq, not_and]
    omega
  simp only [granted, missed]

theorem pages_left_covers (arena : Nat) (s : System) (page : Option Nat) (left : List (Option Nat)) (p : Nat) (covered : Covers (regionOf arena (pagesLeft s page left)) p) :
    Covers (page.toList.map (fun a => (⟨a, pageSize⟩ : Block)) ++ regionOf arena s.pages) p := by
  rw [pagesLeft] at covered
  split at covered
  · simpa [regionOf, List.append_assoc] using covered
  · exact (covers_append _ _ p).mpr (.inr covered)

theorem find_first {α : Type} (hit : α → Bool) (first last : List α) (found : α) (before : ∀ a ∈ first, hit a = false) (here : hit found = true) :
    (first ++ found :: last).find? hit = some found ∧ (first ++ found :: last).eraseP hit = first ++ last := by
  induction first with
  | nil => exact ⟨by simp [here], by simp [here]⟩
  | cons a rest ih =>
      have missed := before a (by simp)
      obtain ⟨found', erased⟩ := ih fun b member => before b (by simp [member])
      exact ⟨by simp [missed, found'], by simp [missed, erased]⟩

theorem big_at_iff (block : Nat) (grant : Grant) :
    grant.bigAt block = true ↔ ∃ bb, grant.bigBlock = some bb ∧ bb.pages = block := by
  cases grant with
  | small header units size => simp [Grant.bigAt, Grant.bigBlock]
  | big node order pages size => simp [Grant.bigAt, Grant.bigBlock]

section Calls

variable (arena : Nat) (s : System) (blocks : List Block) (inv : Inv arena s blocks)

include inv

theorem header_covered (header units size : Nat) (member : Grant.small header units size ∈ s.live) : Covers (s.live.map Grant.held) header := by
  have inside : (Grant.small header units size).held ∈ s.live.map Grant.held := List.mem_map_of_mem member
  exact ⟨_, inside, block_addr_holds _ (inv.sound.heldPositive _ inside)⟩

-- A request of the small kind that is served.
theorem small_served (size : Nat) (page : Option Nat) (c : Nat) (heap : Heap) (pages : List Nat) (blocks' : List Block)
    (allocated : Allocated arena s blocks page (slobUnits (size + slobUnit)) c heap pages blocks') :
    Inv arena ⟨heap, .small c (heap.units c) size :: s.live, pages⟩ blocks' where
  sound := by
    simp only [List.map_cons, Grant.held, allocated.header]
    exact allocated.sound
  headers := by
    intro header units size' member
    rcases List.mem_cons.mp member with here | old
    · simp only [Grant.small.injEq] at here
      obtain ⟨rfl, rfl, rfl⟩ := here
      exact ⟨rfl, allocated.header⟩
    · rw [allocated.frame header (header_covered arena s blocks inv header units size' old)]
      exact inv.headers header units size' old
  orders := by
    intro node order pages' size' member
    rcases List.mem_cons.mp member with here | old
    · cases here
    · exact inv.orders node order pages' size' old
  bigs := allocated.bigs.trans inv.bigs
  bigApart := inv.bigApart
  bigOutside := allocated.outside
  regionApart := allocated.apart

theorem big_served (size : Nat) (page : Option Nat) (left : List (Option Nat)) (c start : Nat) (heap : Heap) (blocks' : List Block)
    (allocated : Allocated arena s blocks page (slobUnits bigblockSize) c heap (pagesLeft s page left) blocks')
    (fresh : Fresh (page.toList.map (fun a => ⟨a, pageSize⟩) ++ (regionOf arena s.pages ++ s.live.flatMap Grant.bigPages)) start (pageSize * 2 ^ findOrder size)) :
    Inv arena ⟨{ (heap.setUnits c (findOrder size)).setNext c start with bigblocks := ⟨c, findOrder size, start⟩ :: heap.bigblocks },
      .big c (findOrder size) start size :: s.live, pagesLeft s page left⟩ blocks' where
  sound := by
    refine sound_congr heap _ blocks' _ _ allocated.sound rfl (fun a onList => ?_) fun a onList => ?_
    all_goals
      have other : a ≠ c := by
        rintro rfl
        refine allocated.sound.heldFree a ((covers_cons _ _ a).mpr (.inl ⟨Nat.le_refl _, ?_⟩)) onList
        simp only [Block.stop, slobUnits, bigblockSize, slobUnit]
        omega
      simp [Heap.setNext, Heap.setUnits, Function.update_of_ne other]
  headers := by
    intro header units size' member
    rcases List.mem_cons.mp member with here | old
    · cases here
    · have covered := header_covered arena s blocks inv header units size' old
      have other : header ≠ c := by
        rintro rfl
        obtain ⟨b, inHeld, holds⟩ := covered
        refine (List.pairwise_cons.mp allocated.sound.heldApart).1 b inHeld header ⟨⟨Nat.le_refl _, ?_⟩, holds⟩
        simp only [Block.stop, slobUnits, bigblockSize, slobUnit]
        omega
      have same : heap.units header = s.heap.units header := allocated.frame header covered
      simp only [Heap.setNext, Heap.setUnits, Function.update_of_ne other, same]
      exact inv.headers header units size' old
  orders := by
    intro node order pages' size' member
    rcases List.mem_cons.mp member with here | old
    · simp only [Grant.big.injEq] at here
      obtain ⟨rfl, rfl, rfl, rfl⟩ := here
      exact ⟨rfl, fresh.aligned⟩
    · exact inv.orders node order pages' size' old
  bigs := by
    rw [allocated.bigs, inv.bigs]
    rfl
  bigApart := by
    refine List.pairwise_cons.mpr ⟨fun b member p both => ?_, inv.bigApart⟩
    refine fresh.apart p both.1 ?_
    rw [covers_append, covers_append]
    exact .inr (.inr ⟨b, member, both.2⟩)
  bigOutside := by
    intro p inBig inRegion
    rcases (covers_append _ _ p).mp inBig with new | old
    · obtain ⟨b, member, holds⟩ := new
      obtain rfl : b = ⟨start, pageSize * 2 ^ findOrder size⟩ := List.mem_singleton.mp member
      have part := pages_left_covers arena s page left p inRegion
      refine fresh.apart p holds ?_
      simp only [covers_append] at part ⊢
      tauto
    · exact allocated.outside p old inRegion
  regionApart := allocated.apart

-- Without pages for the big block, its bigblock_t goes back.
theorem big_refused (size : Nat) (page : Option Nat) (left : List (Option Nat)) (c : Nat) (heap : Heap) (blocks' : List Block)
    (allocated : Allocated arena s blocks page (slobUnits bigblockSize) c heap (pagesLeft s page left) blocks') :
    ∃ heap' blocks'', slobFree loopBound ((heap.setUnits c (findOrder size)).setNext c 0) c bigblockSize = .ok heap' ∧
      Inv arena ⟨heap', s.live, pagesLeft s page left⟩ blocks'' ∧
      (ArenaFree arena (pagesLeft s page left) blocks' → ArenaFree arena (pagesLeft s page left) blocks'') := by
  have covered : Block.Holds ⟨c, slobUnits bigblockSize * slobUnit⟩ c := by
    refine ⟨Nat.le_refl _, ?_⟩
    simp only [Block.stop, slobUnits, bigblockSize, slobUnit]
    omega
  have written : Sound ((heap.setUnits c (findOrder size)).setNext c 0) blocks' (⟨c, slobUnits bigblockSize * slobUnit⟩ :: s.live.map Grant.held)
      (regionOf arena (pagesLeft s page left)) := by
    refine sound_congr heap _ blocks' _ _ allocated.sound rfl (fun a onList => ?_) fun a onList => ?_
    all_goals
      have other : a ≠ c := by
        rintro rfl
        exact allocated.sound.heldFree a ((covers_cons _ _ a).mpr (.inl covered)) onList
      simp [Heap.setNext, Heap.setUnits, Function.update_of_ne other]
  obtain ⟨heap', below, above, ran, rfl, sound, frame, bigs⟩ := free_sound _ blocks' _ _ ⟨c, slobUnits bigblockSize * slobUnit⟩ bigblockSize written rfl allocated.lone
  refine ⟨heap', joinBetween below ⟨c, slobUnits bigblockSize * slobUnit⟩ above, ran,
    ⟨sound, fun header units size' member => ?_, inv.orders, ?_, inv.bigApart, allocated.outside, allocated.apart⟩, fun free => ⟨?_, free.away⟩⟩
  · have inHeld := header_covered arena s blocks inv header units size' member
    have other : header ≠ c := by
      rintro rfl
      obtain ⟨b, inside, holds⟩ := inHeld
      exact (List.pairwise_cons.mp allocated.sound.heldApart).1 b inside header ⟨covered, holds⟩
    have same : heap.units header = s.heap.units header := allocated.frame header inHeld
    simp only [frame header inHeld, Heap.setNext, Heap.setUnits, Function.update_of_ne other, same]
    exact inv.headers header units size' member
  · calc heap'.bigblocks
      _ = heap.bigblocks := bigs
      _ = s.heap.bigblocks := allocated.bigs
      _ = s.live.filterMap Grant.bigBlock := inv.bigs
  · obtain ⟨notBefore, notAfter⟩ := arena_untouched arena _ _ _ _ _ written allocated.apart free
    exact join_between_keeps below above _ ⟨arena, slobUnit⟩ free.listed notAfter notBefore

-- kmalloc on any size that does not run into the assertion of slob_alloc.
theorem kmalloc_inv (size : Nat) (page pages : Option Nat) (fits : size + 2 * slobUnit < pageSize ∨ pageSize - slobUnit ≤ size)
    (given : Given arena s (.kmalloc size page pages)) (spare : SpareBlocks s blocks (.kmalloc size page pages)) :
    ∃ pointer heap left blocks', kmalloc loopBound s.heap size page pages = .ok (pointer, heap, left) ∧
      Inv arena ⟨heap, (pointer.map (granted heap size)).toList ++ s.live, pagesLeft s page left⟩ blocks' ∧
      (∀ p ∈ pointer, (size < pageSize - slobUnit ∧ ∃ header, p = header + slobUnit ∧ granted heap size p = .small header (slobUnits (size + slobUnit)) size) ∨
        (pageSize - slobUnit ≤ size ∧ ∃ node, granted heap size p = .big node (findOrder size) p size)) ∧
      (pointer = none → page = none ∨ (pages = none ∧ pageSize - slobUnit ≤ size)) ∧
      (2 ≤ needed size → (∀ a ∈ page, a ≠ arena + slobUnit ∧ a + pageSize ≠ arena) → ArenaFree arena s.pages blocks →
        ArenaFree arena (pagesLeft s page left) blocks') := by
  obtain ⟨freshPage, freshPages⟩ := given
  obtain ⟨spare, apart⟩ := spare
  by_cases small : size < pageSize - slobUnit
  · have limit : size + slobUnit + slobUnit < pageSize := by
      simp only [pageSize, slobUnit] at fits small ⊢
      omega
    have units : needed size = slobUnits (size + slobUnit) := if_pos small
    rw [units] at spare ⊢
    rcases alloc_call arena s blocks inv (size + slobUnit) page limit (by simp only [slobUnit]; omega) spare freshPage apart with
      ⟨rfl, ran⟩ | ⟨c, heap, left, blocks', ran, allocated⟩
    · refine ⟨none, s.heap, [], blocks, ?_, inv, by simp, fun _ => .inl rfl, fun _ _ free => free⟩
      simp only [kmalloc, if_pos small, ran, Except.map, Option.map_none]
    · have grant : granted heap size (c + slobUnit) = .small c (heap.units c) size := by
        rw [granted_small heap size (c + slobUnit) small, Nat.add_sub_cancel]
      refine ⟨some (c + slobUnit), heap, left, blocks', ?_, ?_, ?_, by simp, allocated.arenaKept⟩
      · simp only [kmalloc, if_pos small, ran, Except.map, Option.map_some]
      · simp only [Option.map_some, Option.toList_some, grant, List.singleton_append]
        exact small_served arena s blocks inv size page c heap _ blocks' allocated
      · intro p member
        obtain rfl : c + slobUnit = p := Option.some.inj member
        exact .inl ⟨small, c, rfl, by rw [grant, allocated.header]⟩
  · have units : needed size = slobUnits bigblockSize := if_neg small
    rw [units] at spare ⊢
    rcases alloc_call arena s blocks inv bigblockSize page (by decide) (by decide) spare freshPage apart with
      ⟨rfl, ran⟩ | ⟨c, heap, left, blocks', ran, allocated⟩
    · refine ⟨none, s.heap, [], blocks, ?_, inv, by simp, fun _ => .inl rfl, fun _ _ free => free⟩
      simp only [kmalloc, if_neg small, ran, Except.bind]
    · cases pages with
      | none =>
          obtain ⟨heap', blocks'', freed, after, kept⟩ := big_refused arena s blocks inv size page left c heap blocks' allocated
          refine ⟨none, heap', left, blocks'', ?_, after, by simp, fun _ => .inr ⟨rfl, by omega⟩, fun two away free => kept (allocated.arenaKept two away free)⟩
          simp only [kmalloc, if_neg small, ran, Except.bind, Option.getD_none, freed, Except.map]
      | some start =>
          have fresh := freshPages start rfl
          have result : kmalloc loopBound s.heap size page (some start) = .ok (some start,
              { (heap.setUnits c (findOrder size)).setNext c start with bigblocks := ⟨c, findOrder size, start⟩ :: heap.bigblocks }, left) := by
            simp only [kmalloc, if_neg small, ran, Except.bind, Option.getD_some]
            rfl
          refine ⟨some start, _, left, blocks', result, ?_, ?_, by simp, allocated.arenaKept⟩
          · have grant := big_served arena s blocks inv size page left c start heap blocks' allocated fresh
            simpa [granted, Nat.le_of_not_lt small] using grant
          · intro p member
            obtain rfl : start = p := Option.some.inj member
            exact .inr ⟨Nat.le_of_not_lt small, c, by simp [granted, Nat.le_of_not_lt small]⟩

-- The grant that kfree ends, and how: slob_free gets its block of the heap, from which
-- the bigblock_t is off the list.
structure Freed (s : System) (block : Nat) (first : List Grant) (grant : Grant) (last : List Grant) (heap : Heap) (size : Nat) : Prop where
  split : s.live = first ++ grant :: last
  released : release s.live block = first ++ last
  freed : freedBlock s.heap block = grant.held
  ran : kfree loopBound s.heap block = slobFree loopBound heap grant.held.addr size
  same : heap.next = s.heap.next ∧ heap.units = s.heap.units ∧ heap.slobfree = s.heap.slobfree
  bigs : heap.bigblocks = (first ++ last).filterMap Grant.bigBlock
  own : grant.held.size = (if size ≠ 0 then slobUnits size else heap.units grant.held.addr) * slobUnit

theorem freed_big (block : Nat) (big : s.live.any (Grant.bigAt block) = true) : ∃ first grant last heap size, Freed s block first grant last heap size := by
  obtain ⟨some', there, hits⟩ := List.any_eq_true.mp big
  obtain ⟨grant, first, last, before, hit, split, erased⟩ := List.exists_of_eraseP there hits
  cases grant with
  | small header units size => simp [Grant.bigAt, Grant.bigBlock] at hit
  | big node order pages size =>
      obtain rfl : pages = block := by simpa [Grant.bigAt, Grant.bigBlock] using hit
      have aligned := (inv.orders node order pages size (by simp [split])).2
      have bigs : s.heap.bigblocks = first.filterMap Grant.bigBlock ++ ⟨node, order, pages⟩ :: last.filterMap Grant.bigBlock := by
        rw [inv.bigs, split, List.filterMap_append, List.filterMap_cons]
        rfl
      have missed : ∀ bb ∈ first.filterMap Grant.bigBlock, bb.pages ≠ pages := by
        intro bb member same
        obtain ⟨other, inside, is⟩ := List.mem_filterMap.mp member
        exact before other inside ((big_at_iff pages other).mpr ⟨bb, is, same⟩)
      obtain ⟨found, rest⟩ := find_first (fun bb : BigBlock => decide (bb.pages = pages)) (first.filterMap Grant.bigBlock) (last.filterMap Grant.bigBlock)
        ⟨node, order, pages⟩ (fun bb member => by simpa using missed bb member) (by simp)
      obtain ⟨freed, _⟩ := find_first (fun bb : BigBlock => decide (pages % pageSize = 0 ∧ bb.pages = pages)) (first.filterMap Grant.bigBlock)
        (last.filterMap Grant.bigBlock) ⟨node, order, pages⟩ (fun bb member => by simp [missed bb member]) (by simp [aligned])
      refine ⟨first, .big node order pages size, last, { s.heap with bigblocks := first.filterMap Grant.bigBlock ++ last.filterMap Grant.bigBlock }, bigblockSize,
        split, ?_, ?_, ?_, ⟨rfl, rfl, rfl⟩, by simp, rfl⟩
      · rw [release, if_pos big, erased]
      · rw [freedBlock, bigs, freed]
        rfl
      · simp only [kfree, if_pos aligned, bigs, found, rest]
        rfl

theorem freed_small (block : Nat) (small : s.live.any (Grant.bigAt block) = false) (held : (s.live.any fun grant => grant.pointer = block) = true) :
    ∃ first grant last heap size, Freed s block first grant last heap size := by
  have noBig : ∀ bb ∈ s.heap.bigblocks, bb.pages ≠ block := by
    intro bb member same
    rw [inv.bigs] at member
    obtain ⟨grant, inside, is⟩ := List.mem_filterMap.mp member
    have missed := List.any_eq_false.mp small grant inside
    exact missed ((big_at_iff block grant).mpr ⟨bb, is, same⟩)
  obtain ⟨some', there, hits⟩ := List.any_eq_true.mp held
  obtain ⟨grant, first, last, before, hit, split, erased⟩ := List.exists_of_eraseP (p := fun grant : Grant => decide (grant.pointer = block)) there hits
  cases grant with
  | big node order pages size =>
      have missed := List.any_eq_false.mp small (.big node order pages size) (by simp [split])
      have same : pages = block := of_decide_eq_true hit
      exact absurd ((big_at_iff block _).mpr ⟨⟨node, order, pages⟩, rfl, same⟩) missed
  | small header units size =>
      obtain rfl : header + slobUnit = block := of_decide_eq_true hit
      have known := (inv.headers header units size (by simp [split])).1
      have start : header + slobUnit - slobUnit = header := Nat.add_sub_cancel header slobUnit
      have notFound : s.heap.bigblocks.find? (fun bb => bb.pages = header + slobUnit) = none :=
        List.find?_eq_none.mpr fun bb member => by simpa using noBig bb member
      have notFreed : s.heap.bigblocks.find? (fun bb => (header + slobUnit) % pageSize = 0 ∧ bb.pages = header + slobUnit) = none :=
        List.find?_eq_none.mpr fun bb member => by simp [noBig bb member]
      have bigs : s.heap.bigblocks = (first ++ last).filterMap Grant.bigBlock := by
        rw [inv.bigs, split, List.filterMap_append, List.filterMap_append, List.filterMap_cons]
        rfl
      refine ⟨first, .small header units size, last, s.heap, 0, split, ?_, ?_, ?_, ⟨rfl, rfl, rfl⟩, bigs, by simp [Grant.held, known]⟩
      · rw [release, if_neg (by simp [small]), erased]
      · rw [freedBlock, notFreed]
        simp only [start, known]
        rfl
      · by_cases aligned : (header + slobUnit) % pageSize = 0
        · simp only [kfree, if_pos aligned, notFound, start]
          rfl
        · simp only [kfree, if_neg aligned, start]
          rfl

theorem freed_grant (block : Nat) (held : (s.live.any fun grant => grant.pointer = block) = true) :
    ∃ first grant last heap size, Freed s block first grant last heap size := by
  cases big : s.live.any (Grant.bigAt block) with
  | true => exact freed_big arena s blocks inv block big
  | false => exact freed_small arena s blocks inv block big held

theorem freed_started (block : Nat) (first last : List Grant) (grant : Grant) (heap : Heap) (size : Nat) (freed : Freed s block first grant last heap size) :
    Sound heap blocks (grant.held :: (first ++ last).map Grant.held) (regionOf arena s.pages) := by
  have shape : (s.live.map Grant.held).Perm (grant.held :: (first ++ last).map Grant.held) := by
    rw [freed.split, List.map_append, List.map_cons, List.map_append]
    exact List.perm_middle
  refine sound_perm heap blocks _ _ _ (sound_congr s.heap heap blocks _ _ inv.sound freed.same.2.2 (fun a _ => ?_) fun a _ => ?_) shape
  · rw [freed.same.1]
  · rw [freed.same.2.1]

theorem kfree_inv (block : Nat) (held : (s.live.any fun grant => grant.pointer = block) = true) (spare : SpareBlocks s blocks (.kfree block)) :
    ∃ heap blocks', kfree loopBound s.heap block = .ok heap ∧ Inv arena ⟨heap, release s.live block, s.pages⟩ blocks' ∧
      (ArenaFree arena s.pages blocks → ArenaFree arena s.pages blocks') := by
  obtain ⟨first, grant, last, heap, size, freed⟩ := freed_grant arena s blocks inv block held
  have started := freed_started arena s blocks inv block first last grant heap size freed
  have lone : ∀ d, blocks = [d] → grant.held.stop ≠ d.addr := fun d single => freed.freed ▸ spare d single
  obtain ⟨heap', below, above, ran, rfl, sound, frame, bigs'⟩ := free_sound heap blocks _ _ grant.held size started freed.own lone
  have member : ∀ other ∈ first ++ last, other ∈ s.live := by
    intro other inside
    rw [freed.split]
    simp only [List.mem_append, List.mem_cons] at inside ⊢
    tauto
  rw [freed.released]
  refine ⟨heap', joinBetween below grant.held above, freed.ran.trans ran, ⟨sound, fun header units size' inside => ?_,
    fun node order pages size' inside => inv.orders node order pages size' (member _ inside), bigs'.trans freed.bigs, ?_, fun p covered => ?_,
    inv.regionApart⟩, fun free => ⟨?_, free.away⟩⟩
  · have covered : Covers ((first ++ last).map Grant.held) header :=
      ⟨_, List.mem_map_of_mem inside, block_addr_holds _ (started.heldPositive _ (List.mem_cons_of_mem _ (List.mem_map_of_mem inside)))⟩
    rw [frame header covered, freed.same.2.1]
    exact inv.headers header units size' (member _ inside)
  · have apart := inv.bigApart
    rw [freed.split, List.flatMap_append, List.flatMap_cons] at apart
    rw [List.flatMap_append]
    exact apart.sublist ((List.Sublist.refl _).append (List.sublist_append_right _ _))
  · refine inv.bigOutside p ?_
    rw [freed.split]
    simp only [List.flatMap_append, List.flatMap_cons, covers_append] at covered ⊢
    tauto
  · obtain ⟨notBefore, notAfter⟩ := arena_untouched arena heap _ _ _ _ started inv.regionApart free
    exact join_between_keeps below above _ ⟨arena, slobUnit⟩ free.listed notAfter notBefore

end Calls

end Ucore.Slob
