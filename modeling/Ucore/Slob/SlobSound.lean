import Ucore.Slob.SlobAlloc

set_option autoImplicit false

namespace Ucore.Slob

open Ucore.Lib

-- More rounds than any list of blocks in a 64-bit address space takes.
def loopBound : Nat := 2 ^ 65

-- The free blocks and the ones in use make up the region: the arena and the pages.
structure Sound (h : Heap) (blocks held region : List Block) : Prop where
  listed : Listed h blocks
  whole : Coalesced blocks
  heldPositive : Nonempty held
  heldApart : held.Pairwise Block.Apart
  heldFree : ∀ p, Covers held p → ¬ Covers blocks p
  inside : ∀ p, Covers blocks p ∨ Covers held p → Covers region p
  counted : total blocks + total held = total region
  bounded : ∀ r ∈ region, r.stop ≤ 2 ^ 64

theorem sound_short (h : Heap) (blocks held region : List Block) (sound : Sound h blocks held region) : blocks.length ≤ 2 ^ 64 := by
  have within : ∀ b ∈ blocks, b.stop ≤ 2 ^ 64 := by
    intro b member
    have size := sound.listed.nonempty b member
    obtain ⟨r, inRegion, _, high⟩ := sound.inside (b.stop - 1)
      (.inl ⟨b, member, by simp only [Block.stop]; omega, by simp only [Block.stop]; omega⟩)
    have limit := sound.bounded r inRegion
    simp only [Block.stop] at high limit ⊢
    omega
  have bound := ascending_total blocks (2 ^ 64) sound.listed.ascending within
  exact Nat.le_trans (length_le_total blocks sound.listed.nonempty) bound

-- A block in use comes back.
theorem free_sound (h : Heap) (blocks held region : List Block) (b : Block) (size : Nat) (sound : Sound h blocks (b :: held) region)
    (own : b.size = (if size ≠ 0 then slobUnits size else h.units b.addr) * slobUnit) (lone : ∀ d, blocks = [d] → b.stop ≠ d.addr) :
    ∃ h' below above, slobFree loopBound h b.addr size = .ok h' ∧ blocks = below ++ above ∧ Sound h' (joinBetween below b above) held region ∧
      (∀ a, Covers held a → h'.units a = h.units a) ∧ h'.bigblocks = h.bigblocks := by
  obtain ⟨listed, whole, heldPositive, heldApart, heldFree, inside, counted, bounded⟩ := sound
  have short := sound_short h blocks (b :: held) region ⟨listed, whole, heldPositive, heldApart, heldFree, inside, counted, bounded⟩
  have positive := heldPositive b (by simp)
  obtain ⟨fromB, restApart⟩ := List.pairwise_cons.mp heldApart
  obtain ⟨h', below, above, ran, rfl, ascending, nonempty, listed', units, bigs⟩ := slob_free_spec loopBound h blocks b size listed positive own
    (fun p holds => heldFree p ((covers_cons b held p).mpr (.inl holds))) lone (by simp only [loopBound]; omega)
  obtain ⟨_, _, totals, covers⟩ := join_between_spec below above b ascending nonempty
  have others : ∀ p, Covers held p → ¬ b.Holds p := fun p ⟨c, member, holds⟩ inB => fromB c member p ⟨inB, holds⟩
  refine ⟨h', below, above, ran, rfl, ⟨listed', coalesced_join_between below above b ascending nonempty whole, fun c member => heldPositive c (by simp [member]),
    restApart, fun p covered => ?_, fun p either => inside p ?_, ?_, bounded⟩, fun a covered => ?_, bigs⟩
  · rw [covers p, covers_append, covers_cons]
    have old := heldFree p ((covers_cons b held p).mpr (.inr covered))
    have notB := others p covered
    rw [covers_append] at old
    tauto
  · rw [covers p] at either
    simp only [covers_append, covers_cons] at either ⊢
    tauto
  · rw [totals]
    simp only [total_append, total_cons] at counted ⊢
    omega
  · refine units a (fun same => others a covered (same ▸ block_addr_holds b positive)) fun member => ?_
    exact heldFree a ((covers_cons b held a).mpr (.inr covered)) (addr_covered _ listed.nonempty a member)

-- Pages that alloc_pages gives: whole, in the address space, and not in use.
structure Fresh (region : List Block) (a size : Nat) : Prop where
  aligned : a % pageSize = 0
  bounded : a + size ≤ 2 ^ 64
  apart : ∀ p, Block.Holds ⟨a, size⟩ p → ¬ Covers region p

theorem page_sound (h : Heap) (blocks held region : List Block) (a : Nat) (sound : Sound h blocks held region) (fresh : Fresh region a pageSize) :
    Sound h blocks (⟨a, pageSize⟩ :: held) (⟨a, pageSize⟩ :: region) where
  listed := sound.listed
  whole := sound.whole
  heldPositive := by
    intro c member
    rcases List.mem_cons.mp member with here | old
    · exact here ▸ (by decide : 0 < pageSize)
    · exact sound.heldPositive c old
  heldApart := List.pairwise_cons.mpr ⟨fun c member p both => fresh.apart p both.1 (sound.inside p (.inr ⟨c, member, both.2⟩)), sound.heldApart⟩
  heldFree := by
    intro p covered inBlocks
    rcases (covers_cons _ _ p).mp covered with new | old
    · exact fresh.apart p new (sound.inside p (.inl inBlocks))
    · exact sound.heldFree p old inBlocks
  inside := by
    intro p either
    have old := sound.inside p
    simp only [covers_cons] at either ⊢
    tauto
  counted := by
    have counted := sound.counted
    simp only [total_cons]
    omega
  bounded := by
    intro r member
    rcases List.mem_cons.mp member with here | old
    · exact here ▸ fresh.bounded
    · exact sound.bounded r old

-- The scan of the whole list.
theorem scan_listed (h : Heap) (blocks : List Block) (units bound : Nat) (listed : Listed h blocks) (enough : blocks.length ≤ bound) :
    (scan h 0 units h.slobfree (h.next h.slobfree) bound = .ok none ∧ ∀ b ∈ blocks, h.units b.addr < units) ∨
      ∃ p ∈ blocks.map Block.addr, scan h 0 units h.slobfree (h.next h.slobfree) bound = .ok (some (p, h.next p)) ∧ units ≤ h.units (h.next p) := by
  obtain ⟨left, right, split⟩ := List.append_of_mem listed.head
  have cycle := listed.cycle
  rw [split] at cycle
  have path := (cycle_cons h.next _ _).mp (cycle_turn h.next left (h.slobfree :: right) cycle)
  have sorted := sorted_nodup _ (addrs_sorted blocks listed.ascending listed.nonempty)
  rw [split] at sorted
  have away : h.slobfree ∉ right ++ left := by
    have others := (List.nodup_cons.mp (List.nodup_middle.mp sorted)).1
    simp only [List.mem_append] at others ⊢
    tauto
  have length : (right ++ left).length < bound := by
    have count := congrArg List.length split
    simp only [List.length_map, List.length_append, List.length_cons] at count ⊢
    omega
  rcases scan_spec h units h.slobfree (right ++ left) bound path away length with ⟨result, small⟩ | ⟨p, member, result, large⟩
  · refine .inl ⟨result, fun b inside => small b.addr ?_⟩
    have there : b.addr ∈ blocks.map Block.addr := List.mem_map_of_mem inside
    rw [split] at there
    simp only [List.mem_append, List.mem_cons] at there ⊢
    tauto
  · refine .inr ⟨p, ?_, result, large⟩
    rw [split]
    simp only [List.mem_append, List.mem_cons] at member ⊢
    tauto

-- The first units of a block go into use.
structure Taken (h h' : Heap) (blocks blocks' held region : List Block) (c units : Nat) : Prop where
  sound : Sound h' blocks' (⟨c, units * slobUnit⟩ :: held) region
  header : h'.units c = units
  frame : ∀ a, Covers held a → h'.units a = h.units a
  bigs : h'.bigblocks = h.bigblocks
  kept : ∀ d ∈ blocks, d.size < units * slobUnit → d ∈ blocks'
  lone : ∀ d, blocks' = [d] → c + units * slobUnit ≠ d.addr

theorem take_sound (h : Heap) (blocks held region : List Block) (units prev : Nat) (sound : Sound h blocks held region) (positive : 0 < units)
    (member : prev ∈ blocks.map Block.addr) (room : units ≤ h.units (h.next prev)) (several : ∀ d, blocks ≠ [d]) :
    ∃ c h' blocks', take h 0 units prev (h.next prev) = (c, h') ∧ Taken h h' blocks blocks' held region c units := by
  obtain ⟨h', below, c, above, ran, rfl, fits, listed', header, frame, bigs⟩ := take_spec h blocks units prev sound.listed positive member room several
  obtain ⟨listed, whole, heldPositive, heldApart, heldFree, inside, counted, bounded⟩ := sound
  have grain : 0 < units * slobUnit := Nat.mul_pos positive (by decide)
  obtain ⟨_, _, totals, covers, apart⟩ := remainder_spec (units * slobUnit) below above c listed.ascending listed.nonempty fits
  refine ⟨c.addr, h', below ++ remainder (units * slobUnit) c above, ran, ⟨listed', coalesced_remainder _ below above c listed.ascending listed.nonempty whole grain,
    ?_, ?_, fun p covered inBlocks => ?_, fun p either => inside p ?_, ?_, bounded⟩, header, fun a covered => frame a (heldFree a covered), bigs,
    fun d inList less => ?_, fun d single meet => ?_⟩
  · intro b inHeld
    rcases List.mem_cons.mp inHeld with here | old
    · exact here ▸ grain
    · exact heldPositive b old
  · refine List.pairwise_cons.mpr ⟨fun b inHeld p both => ?_, heldApart⟩
    exact heldFree p ⟨b, inHeld, both.2⟩ ((covers p).mpr (.inr both.1))
  · rcases (covers_cons _ _ p).mp covered with new | old
    · exact apart p new inBlocks
    · exact heldFree p old ((covers p).mpr (.inl inBlocks))
  · have parts := covers p
    simp only [covers_cons] at either
    tauto
  · simp only [total_cons]
    omega
  · simp only [List.mem_append, List.mem_cons] at inList ⊢
    rcases inList with low | here | high
    · exact .inl low
    · rw [here] at less
      omega
    · refine .inr ?_
      rw [remainder]
      split
      · exact List.mem_cons_of_mem _ high
      · exact high
  · by_cases less : units * slobUnit < c.size
    · rw [remainder, if_pos less] at single
      cases below with
      | nil =>
          simp only [List.nil_append, List.cons.injEq] at single
          exact several c (by simp [single.2])
      | cons first rest => simp at single
    · rw [remainder, if_neg less] at single
      have last : d ∈ below ++ above := by simp [single]
      refine whole c (by simp) d (by simp only [List.mem_append, List.mem_cons] at last ⊢; tauto) ?_
      simp only [Block.stop]
      omega

theorem slob_units_pos (size : Nat) (positive : 0 < size) : 0 < slobUnits size := by
  simp only [slobUnits, slobUnit]
  omega

theorem slob_units_page : slobUnits pageSize * slobUnit = pageSize := by decide

-- slob_alloc when no block has room: with a page it goes round once more.
theorem grow_sound (h : Heap) (blocks held region : List Block) (size a : Nat) (sound : Sound h blocks held region) (small : size + slobUnit < pageSize)
    (positive : 0 < size) (fresh : Fresh region a pageSize) (d : Block) (onList : d ∈ blocks) (before : d.stop ≠ a) (after : a + pageSize ≠ d.addr)
    (none' : scan h 0 (slobUnits size) h.slobfree (h.next h.slobfree) loopBound = .ok none) :
    ∃ c h' blocks', slobAlloc loopBound h size 0 [some a] = .ok (some c, h', []) ∧
      Sound h' blocks' (⟨c, slobUnits size * slobUnit⟩ :: held) (⟨a, pageSize⟩ :: region) ∧ h'.units c = slobUnits size ∧
      (∀ p, Covers held p → h'.units p = h.units p) ∧ h'.bigblocks = h.bigblocks ∧
      (∀ e ∈ blocks, e.size < slobUnits size * slobUnit → e.stop ≠ a → a + pageSize ≠ e.addr → e ∈ blocks') ∧
      ∀ e, blocks' = [e] → c + slobUnits size * slobUnit ≠ e.addr := by
  have lone : ∀ e, blocks = [e] → Block.stop ⟨a, pageSize⟩ ≠ e.addr := by
    rintro e rfl
    rwa [← List.mem_singleton.mp onList]
  obtain ⟨h₁, below, above, freed, rfl, sound₁, frame₁, bigs₁⟩ := free_sound h blocks held (⟨a, pageSize⟩ :: region) ⟨a, pageSize⟩ pageSize
    (page_sound h blocks held region a sound fresh) slob_units_page.symm lone
  obtain ⟨large, onList₁, fits, holds⟩ := join_between_holds below above ⟨a, pageSize⟩ (by simp [pageSize])
  have keeps := join_between_keeps below above ⟨a, pageSize⟩ d onList before after
  have room : slobUnits size ≤ h₁.units large.addr := by
    have units := sound₁.listed.sized large onList₁
    simp only [slobUnits, slobUnit, pageSize] at units fits small ⊢
    omega
  have several : ∀ e, joinBetween below ⟨a, pageSize⟩ above ≠ [e] := by
    intro e single
    rw [single] at onList₁ keeps
    have same : d = large := (List.mem_singleton.mp keeps).trans (List.mem_singleton.mp onList₁).symm
    exact fresh.apart a (block_addr_holds ⟨a, pageSize⟩ (by simp [pageSize])) (sound.inside a (.inl ⟨d, onList, same ▸ holds⟩))
  have short₁ := sound_short _ _ _ _ sound₁
  rcases scan_listed h₁ _ (slobUnits size) loopBound sound₁.listed (by simp only [loopBound]; omega) with ⟨_, tooSmall⟩ | ⟨p, member, found, fits'⟩
  · have less := tooSmall large onList₁
    omega
  · obtain ⟨c, h', blocks', ran, taken⟩ := take_sound h₁ _ held _ (slobUnits size) p sound₁ (slob_units_pos size positive) member fits' several
    have notPage : size ≠ pageSize := by
      simp only [slobUnit] at small
      omega
    refine ⟨c, h', blocks', ?_, taken.sound, taken.header, fun q covered => (taken.frame q covered).trans (frame₁ q covered), taken.bigs.trans bigs₁,
      fun e member' less notBefore notAfter => taken.kept e (join_between_keeps below above ⟨a, pageSize⟩ e member' notBefore notAfter) less, taken.lone⟩
    simp only [slobAlloc, if_pos small, allocLoop, none', Except.bind, if_neg notPage, freed, found, ran]

-- What slob_alloc does with one answer of alloc_pages at hand: it never asks twice.
theorem alloc_sound (h : Heap) (blocks held region : List Block) (size : Nat) (page : Option Nat) (sound : Sound h blocks held region)
    (small : size + slobUnit < pageSize) (positive : 0 < size) (spare : ∀ d, blocks = [d] → h.units d.addr < slobUnits size)
    (fresh : ∀ a ∈ page, Fresh region a pageSize) (apart : ∀ a ∈ page, ∃ d ∈ blocks, d.stop ≠ a ∧ a + pageSize ≠ d.addr) :
    (page = none ∧ slobAlloc loopBound h size 0 [page] = .ok (none, h, []) ∧ ∀ b ∈ blocks, h.units b.addr < slobUnits size) ∨
      ∃ c h' blocks' region' left, slobAlloc loopBound h size 0 [page] = .ok (some c, h', left) ∧
        ((left = [page] ∧ region' = region) ∨ (left = [] ∧ ∃ a ∈ page, region' = ⟨a, pageSize⟩ :: region)) ∧
        Sound h' blocks' (⟨c, slobUnits size * slobUnit⟩ :: held) region' ∧ h'.units c = slobUnits size ∧
        (∀ p, Covers held p → h'.units p = h.units p) ∧ h'.bigblocks = h.bigblocks ∧
        (∀ e ∈ blocks, e.size < slobUnits size * slobUnit → (∀ a ∈ page, e.stop ≠ a ∧ a + pageSize ≠ e.addr) → e ∈ blocks') ∧
        ∀ e, blocks' = [e] → c + slobUnits size * slobUnit ≠ e.addr := by
  have short := sound_short _ _ _ _ sound
  rcases scan_listed h blocks (slobUnits size) loopBound sound.listed (by simp only [loopBound]; omega) with ⟨none', tooSmall⟩ | ⟨p, member, found, fits⟩
  · cases page with
    | none =>
        have notPage : size ≠ pageSize := by
          simp only [slobUnit] at small
          omega
        refine .inl ⟨rfl, ?_, tooSmall⟩
        simp only [slobAlloc, if_pos small, allocLoop, none', Except.bind, if_neg notPage]
    | some a =>
        obtain ⟨d, onList, before, after⟩ := apart a rfl
        obtain ⟨c, h', blocks', ran, sound', header, frame, bigs, kept, lone⟩ := grow_sound h blocks held region size a sound small positive (fresh a rfl)
          d onList before after none'
        exact .inr ⟨c, h', blocks', _, [], ran, .inr ⟨rfl, a, rfl, rfl⟩, sound', header, frame, bigs,
          fun e inList less away => kept e inList less (away a rfl).1 (away a rfl).2, lone⟩
  · have several : ∀ d, blocks ≠ [d] := by
      rintro d rfl
      have less := spare d rfl
      have onward := cycle_member h.next _ sound.listed.cycle p member
      rw [List.mem_singleton.mp onward] at fits
      omega
    obtain ⟨c, h', blocks', ran, taken⟩ := take_sound h blocks held region (slobUnits size) p sound (slob_units_pos size positive) member fits several
    refine .inr ⟨c, h', blocks', region, [page], ?_, .inl ⟨rfl, rfl⟩, taken.sound, taken.header, taken.frame, taken.bigs,
      fun e inList less _ => taken.kept e inList less, taken.lone⟩
    simp only [slobAlloc, if_pos small, allocLoop, found, Except.bind, ran]

end Ucore.Slob
