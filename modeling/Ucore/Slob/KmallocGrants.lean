import Ucore.Slob.KmallocEnds

set_option autoImplicit false

namespace Ucore.Slob

open Ucore.Lib

-- The order is the least one for which the size shifted by it is not above 4096.
theorem order_loop_spec (size order fuel : Nat) (small : size < 4097 * 2 ^ fuel) :
    ∃ shift, orderLoop size order fuel = order + shift ∧ size < 4097 * 2 ^ shift ∧ (shift = 0 ∨ 4097 * 2 ^ (shift - 1) ≤ size) := by
  induction fuel generalizing size order with
  | zero => exact ⟨0, rfl, small, .inl rfl⟩
  | succ n ih =>
      by_cases large : 4096 < size
      · have half : ((size : Int) / 2) = ((size / 2 : Nat) : Int) := by omega
        have bound : size / 2 < 4097 * 2 ^ n := by
          rw [Nat.pow_succ] at small
          omega
        obtain ⟨shift, result, upper, lower⟩ := ih (size / 2) (order + 1) bound
        refine ⟨shift + 1, ?_, ?_, .inr ?_⟩
        · have cast : (4096 : Int) < size := by omega
          rw [orderLoop, if_pos cast, half, result, Nat.add_assoc, Nat.add_comm 1]
        · rw [Nat.pow_succ]
          omega
        · cases shift with
          | zero =>
              simp only [Nat.zero_add, Nat.sub_self, Nat.pow_zero, Nat.mul_one]
              exact large
          | succ t =>
              simp only [Nat.add_sub_cancel] at lower ⊢
              rw [Nat.pow_succ]
              omega
      · have cast : ¬ (4096 : Int) < size := by omega
        exact ⟨0, by rw [orderLoop, if_neg cast]; rfl, by omega, .inl rfl⟩

theorem to_int_small (size : Nat) (small : size < 2 ^ 31) : toInt size = size := by
  have low : size % 2 ^ 32 = size := Nat.mod_eq_of_lt (by omega)
  rw [toInt, low, if_pos small]
  omega

theorem find_order_small (size : Nat) (small : size < 2 ^ 31) :
    size < 4097 * 2 ^ findOrder size ∧ (findOrder size = 0 ∨ 4097 * 2 ^ (findOrder size - 1) ≤ size) := by
  obtain ⟨shift, result, upper, lower⟩ := order_loop_spec size 0 31 (by omega)
  have same : findOrder size = shift := by rw [findOrder, to_int_small size small, result, Nat.zero_add]
  rw [same]
  exact ⟨upper, lower⟩

theorem pow_le_of_le (a b : Nat) (le : a ≤ b) : 2 ^ a ≤ 2 ^ b := Nat.pow_le_pow_right (by decide) le

theorem find_order_bound (size : Nat) : findOrder size ≤ 19 := by
  have limit : ∀ v : Nat, v < 2 ^ 31 → findOrder v ≤ 19 := by
    intro v small
    obtain ⟨_, lower⟩ := find_order_small v small
    by_contra big
    rcases lower with zero | bound
    · omega
    · have grows := pow_le_of_le 19 (findOrder v - 1) (by omega)
      omega
  by_cases low : size % 2 ^ 32 < 2 ^ 31
  · have same : findOrder size = findOrder (size % 2 ^ 32) := by simp [findOrder, toInt]
    rw [same]
    exact limit _ low
  · have negative : toInt size < 0 := by
      rw [toInt, if_neg low]
      have top : size % 2 ^ 32 < 2 ^ 32 := Nat.mod_lt _ (by decide)
      omega
    have notLarge : ¬ (4096 : Int) < toInt size := by omega
    rw [findOrder, orderLoop, if_neg notLarge]
    exact Nat.zero_le _

-- From 2^31 on the int that find_order gets is another number.
theorem find_order_large (size : Nat) (large : 2 ^ 31 ≤ size) : pageSize * 2 ^ findOrder size < size := by
  by_cases low : size % 2 ^ 32 < 2 ^ 31
  · have grows := pow_le_of_le (findOrder size) 19 (find_order_bound size)
    have wrapped : 2 ^ 32 ≤ size := by
      by_contra fits
      rw [Nat.mod_eq_of_lt (by omega)] at low
      omega
    simp only [pageSize]
    omega
  · have negative : ¬ (4096 : Int) < toInt size := by
      rw [toInt, if_neg low]
      have top : size % 2 ^ 32 < 2 ^ 32 := Nat.mod_lt _ (by decide)
      omega
    have zero : findOrder size = 0 := by rw [findOrder, orderLoop, if_neg negative]
    rw [zero]
    simp only [pageSize]
    omega

-- The shifting loop drops the bits that it shifts out: it stops too early for the
-- sizes right above a power of two of pages.
def Fits (size : Nat) : Prop :=
  size + 2 * slobUnit < pageSize ∨
    (pageSize - slobUnit ≤ size ∧ size < 2 ^ 31 ∧ ∀ order, ¬ (pageSize * 2 ^ order < size ∧ size < (pageSize + 1) * 2 ^ order))

theorem big_fits (size : Nat) (small : size < 2 ^ 31) :
    size ≤ pageSize * 2 ^ findOrder size ↔ ∀ order, ¬ (pageSize * 2 ^ order < size ∧ size < (pageSize + 1) * 2 ^ order) := by
  obtain ⟨upper, lower⟩ := find_order_small size small
  simp only [pageSize]
  constructor
  · rintro fits order ⟨above, under⟩
    by_cases less : order < findOrder size
    · have grows := pow_le_of_le order (findOrder size - 1) (by omega)
      rcases lower with zero | bound
      · omega
      · omega
    · have grows := pow_le_of_le (findOrder size) order (by omega)
      omega
  · intro clear
    by_contra short
    exact clear (findOrder size) ⟨by omega, by omega⟩

-- kmalloc returns NULL, or a block of its own that is large enough.
def Grants (s : System) (size : Nat) (page pages : Option Nat) : Prop :=
  ∃ pointer heap left, kmalloc loopBound s.heap size page pages = .ok (pointer, heap, left) ∧
    ∀ p ∈ pointer, (granted heap size p).usable.addr = p ∧ size ≤ (granted heap size p).usable.size ∧
      ∀ other ∈ s.live, Block.Apart (granted heap size p).usable other.usable

-- The bytes of a caller are in a block of the heap, or in pages outside of it.
theorem usable_apart (arena : Nat) (s : System) (blocks : List Block) (grant : Grant) (rest : List Grant) (split : s.live = grant :: rest)
    (inv : Inv arena s blocks) (other : Grant) (member : other ∈ rest) : Block.Apart grant.usable other.usable := by
  have heldApart := inv.sound.heldApart
  have bigApart := inv.bigApart
  rw [split] at heldApart bigApart
  rw [List.map_cons, List.pairwise_cons] at heldApart
  rw [List.flatMap_cons, List.pairwise_append] at bigApart
  have inHeap : ∀ g ∈ s.live, ∀ p, g.held.Holds p → Covers (regionOf arena s.pages) p := fun g inside p holds =>
    inv.sound.inside p (.inr ⟨g.held, List.mem_map_of_mem inside, holds⟩)
  have outside : ∀ g ∈ s.live, ∀ b ∈ g.bigPages, ∀ p, b.Holds p → ¬ Covers (regionOf arena s.pages) p := fun g inside b part p holds =>
    inv.bigOutside p ⟨b, List.mem_flatMap.mpr ⟨g, inside, part⟩, holds⟩
  have small : ∀ header units size p, (Grant.small header units size).usable.Holds p → (Grant.small header units size).held.Holds p := by
    intro header units size p holds
    simp only [Grant.usable, Grant.held, Block.Holds, Block.stop, slobUnit] at holds ⊢
    omega
  have first : grant ∈ s.live := by simp [split]
  have second : other ∈ s.live := by simp [split, member]
  rintro p ⟨inGrant, inOther⟩
  cases grant with
  | small header units size =>
      cases other with
      | small header' units' size' =>
          exact heldApart.1 _ (List.mem_map_of_mem member) p ⟨small header units size p inGrant, small header' units' size' p inOther⟩
      | big node order pages size' =>
          exact outside _ second ⟨pages, pageSize * 2 ^ order⟩ (by simp [Grant.bigPages]) p inOther (inHeap _ first p (small header units size p inGrant))
  | big node order pages size =>
      cases other with
      | small header' units' size' =>
          exact outside _ first ⟨pages, pageSize * 2 ^ order⟩ (by simp [Grant.bigPages]) p inGrant (inHeap _ second p (small header' units' size' p inOther))
      | big node' order' pages' size' =>
          refine bigApart.2.2 ⟨pages, pageSize * 2 ^ order⟩ (by simp [Grant.bigPages]) ⟨pages', pageSize * 2 ^ order'⟩ (List.mem_flatMap.mpr ⟨_, member, by simp [Grant.bigPages]⟩) p
            ⟨inGrant, inOther⟩

theorem fits_grants (arena : Nat) (s : System) (blocks : List Block) (inv : Inv arena s blocks) (size : Nat) (page pages : Option Nat)
    (careful : Careful arena s (.kmalloc size page pages)) (fits : Fits size) : Grants s size page pages := by
  have spare := (spare_iff s blocks inv.sound.listed _).mp careful.2
  have allowed : size + 2 * slobUnit < pageSize ∨ pageSize - slobUnit ≤ size := fits.imp_right And.left
  obtain ⟨pointer, heap, left, blocks', ran, after, kinds, _, _⟩ := kmalloc_inv arena s blocks inv size page pages allowed careful.1 spare
  refine ⟨pointer, heap, left, ran, fun p member => ?_⟩
  obtain rfl : pointer = some p := member
  have apart := usable_apart arena _ blocks' (granted heap size p) s.live rfl after
  rcases kinds p rfl with ⟨_, header, rfl, same⟩ | ⟨large, node, same⟩
  · rw [same] at apart ⊢
    refine ⟨rfl, ?_, fun other inside => apart other inside⟩
    simp only [Grant.usable, slobUnits, slobUnit]
    omega
  · rw [same] at apart ⊢
    refine ⟨rfl, ?_, fun other inside => apart other inside⟩
    rcases fits with tiny | ⟨_, small, clear⟩
    · simp only [pageSize, slobUnit] at tiny large
      omega
    · exact (big_fits size small).mpr clear

-- alloc_pages has pages on the other side of the arena for a request at boot.
def firstPage (arena : Nat) : Nat := if arena < 2 ^ 40 then 2 ^ 41 else pageSize

def firstPages (arena : Nat) : Nat := if arena < 2 ^ 40 then 2 ^ 42 else 2 ^ 32

theorem boot_region (arena p : Nat) (units next : Nat → Nat)
    (covered : Covers (regionOf arena (System.boot arena units next).pages ++ (System.boot arena units next).live.flatMap Grant.bigPages) p) :
    arena ≤ p ∧ p < arena + 16 := by
  simpa [System.boot, regionOf, covers_cons, covers_nil, Block.Holds, Block.stop, slobUnit] using covered

theorem boot_careful (arena : Nat) (units next : Nat → Nat) (size : Nat) (two : 2 ≤ needed size) :
    Careful arena (System.boot arena units next) (.kmalloc size (some (firstPage arena)) (some (firstPages arena))) := by
  have grows := pow_le_of_le (findOrder size) 19 (find_order_bound size)
  have one : (System.boot arena units next).heap.units (System.boot arena units next).heap.slobfree = 1 := by simp [System.boot, Heap.boot]
  refine ⟨⟨fun a given => ?_, fun a given => ?_⟩, fun _ => ?_, fun a given => ⟨arena, ⟨0, rfl⟩, ?_⟩⟩
  · obtain rfl : firstPage arena = a := Option.some.inj given
    refine ⟨?_, ?_, fun p holds covered => ?_⟩
    · unfold firstPage
      split <;> simp [pageSize]
    · unfold firstPage
      split <;> simp [pageSize]
    · have inside := boot_region arena p units next covered
      simp only [Block.Holds, Block.stop, firstPage, pageSize] at holds
      split at holds <;> omega
  · obtain rfl : firstPages arena = a := Option.some.inj given
    refine ⟨?_, ?_, fun p holds covered => ?_⟩
    · unfold firstPages
      split <;> simp [pageSize]
    · simp only [firstPages, pageSize]
      split <;> omega
    · simp only [Block.Holds, Block.stop, firstPages, pageSize] at holds
      rcases (covers_append _ _ p).mp covered with inPage | inRegion
      · simp only [Option.toList_some, List.map_cons, List.map_nil, covers_cons, covers_nil, or_false, Block.Holds, Block.stop, firstPage, pageSize] at inPage
        by_cases low : arena < 2 ^ 40
        · rw [if_pos low] at holds inPage
          omega
        · rw [if_neg low] at holds inPage
          omega
      · have inside := boot_region arena p units next inRegion
        split at holds <;> omega
  · omega
  · obtain rfl : firstPage arena = a := Option.some.inj given
    have unit : (System.boot arena units next).heap.units arena = 1 := one
    rw [unit]
    simp only [firstPage, pageSize, slobUnit]
    split <;> omega

-- A request that does not fit fails at boot.
theorem unfit_fails (arena : Nat) (units next : Nat → Nat) (bounded : arena + slobUnit ≤ 2 ^ 64) (size : Nat) (positive : 1 ≤ size) (unfit : ¬ Fits size) :
    ¬ Grants (System.boot arena units next) size (some (firstPage arena)) (some (firstPages arena)) := by
  have careful := boot_careful arena units next size (needed_two size positive)
  intro grants
  obtain ⟨pointer, heap, left, ran, large⟩ := grants
  by_cases asserted : size < pageSize - slobUnit
  · -- the header takes the request exceeds what slob_alloc asserts
    have exceeds : ¬ size + slobUnit + slobUnit < pageSize := fun below => unfit (.inl (by omega))
    simp [kmalloc, asserted, slobAlloc, exceeds, Except.map] at ran
  · obtain ⟨inv, _⟩ := boot_inv arena units next bounded
    have spare := (spare_iff _ _ inv.sound.listed _).mp careful.2
    obtain ⟨pointer', heap', left', _, ran', _, kinds, served, _⟩ :=
      kmalloc_inv arena _ _ inv size _ _ (.inr (Nat.le_of_not_lt asserted)) careful.1 spare
    rw [ran, Except.ok.injEq, Prod.mk.injEq, Prod.mk.injEq] at ran'
    obtain ⟨rfl, rfl, rfl⟩ := ran'
    cases pointer with
    | none => simp at served
    | some p =>
        obtain ⟨_, enough, _⟩ := large p rfl
        rcases kinds p rfl with ⟨small, _⟩ | ⟨_, node, same⟩
        · exact asserted small
        · rw [same] at enough
          refine unfit (.inr ⟨Nat.le_of_not_lt asserted, ?_, ?_⟩)
          · by_contra huge
            exact absurd enough (Nat.not_le.mpr (find_order_large size (by omega)))
          · by_cases small : size < 2 ^ 31
            · exact (big_fits size small).mp enough
            · exact absurd enough (Nat.not_le.mpr (find_order_large size (by omega)))

-- In every run whose calls are careful, kmalloc grants exactly the sizes that fit.
theorem kmalloc_grants_iff (arena : Nat) (units next : Nat → Nat) (bounded : arena + slobUnit ≤ 2 ^ 64) (size : Nat) (positive : 1 ≤ size) :
    (∀ calls s, Throughout System.step (Careful arena) (System.boot arena units next) calls →
      run System.step (System.boot arena units next) calls = some s → ∀ page pages, Careful arena s (.kmalloc size page pages) →
        Grants s size page pages) ↔ Fits size := by
  constructor
  · intro always
    by_contra unfit
    exact unfit_fails arena units next bounded size positive unfit
      (always [] _ trivial rfl _ _ (boot_careful arena units next size (needed_two size positive)))
  · intro fits calls s careful ran page pages now
    obtain ⟨blocks, inv⟩ := careful_run arena units next bounded calls s careful ran
    exact fits_grants arena s blocks inv size page pages now fits

theorem kmalloc_grants_three_pages : Grants (System.boot 512 (fun _ => 0) fun _ => 0) 12289 (some (firstPage 512)) (some (firstPages 512)) := by
  have fits : Fits 12289 := by
    refine .inr ⟨by decide, by decide, fun order => ?_⟩
    rintro ⟨above, under⟩
    simp only [pageSize] at above under
    cases order with
    | zero => omega
    | succ one =>
        cases one with
        | zero => omega
        | succ two =>
            rw [Nat.pow_succ, Nat.pow_succ] at above
            have positive : 0 < 2 ^ two := Nat.two_pow_pos two
            omega
  exact (kmalloc_grants_iff 512 (fun _ => 0) (fun _ => 0) (by decide) 12289 (by decide)).mpr fits [] _ trivial rfl _ _
    (boot_careful 512 (fun _ => 0) (fun _ => 0) 12289 (by decide))

-- Two pages and a byte are shifted to 4096 and get two pages; 4064 bytes and their
-- header do not pass the assertion of slob_alloc.
theorem kmalloc_short : Careful 512 (System.boot 512 (fun _ => 0) fun _ => 0) (.kmalloc 8193 (some (firstPage 512)) (some (firstPages 512))) ∧
    pageSize * 2 ^ findOrder 8193 = 8192 ∧
    ¬ Grants (System.boot 512 (fun _ => 0) fun _ => 0) 8193 (some (firstPage 512)) (some (firstPages 512)) ∧
    ¬ Grants (System.boot 512 (fun _ => 0) fun _ => 0) 4064 (some (firstPage 512)) (some (firstPages 512)) := by
  refine ⟨boot_careful 512 _ _ 8193 (by decide), by decide, ?_, ?_⟩
  · refine unfit_fails 512 _ _ (by decide) 8193 (by decide) ?_
    rintro (small | ⟨_, _, clear⟩)
    · simp [pageSize, slobUnit] at small
    · exact clear 1 (by decide)
  · refine unfit_fails 512 _ _ (by decide) 4064 (by decide) ?_
    rintro (small | ⟨large, _⟩)
    · simp [pageSize, slobUnit] at small
    · simp [pageSize, slobUnit] at large

end Ucore.Slob
