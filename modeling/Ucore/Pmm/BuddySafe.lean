import Ucore.Pmm.BuddySteps

set_option autoImplicit false

namespace Ucore.Pmm.Buddy

open Ucore.Lib

-- The order of the smallest power of two that is n or more.
def LeastOrder (n order : Nat) : Prop := n ≤ 2 ^ order ∧ ∀ other, n ≤ 2 ^ other → order ≤ other

section Orders

theorem order_loop_spec (n fuel order : Nat) (small : order ≤ maxOrder - 1) (enough : maxOrder ≤ order + fuel) (below : ∀ other < order, 2 ^ other < n) :
    orderLoop n fuel order ≤ maxOrder - 1 ∧ (n ≤ 2 ^ orderLoop n fuel order ∨ orderLoop n fuel order = maxOrder - 1) ∧
      ∀ other < orderLoop n fuel order, 2 ^ other < n := by
  induction fuel generalizing order with
  | zero =>
      simp only [maxOrder] at small enough
      omega
  | succ fuel ih =>
      unfold orderLoop
      by_cases more : 2 ^ order < n ∧ order < maxOrder - 1
      · rw [if_pos more]
        apply ih (order + 1) (by omega) (by omega)
        intro other lower
        by_cases last : other = order
        · exact last ▸ more.1
        · exact below other (by omega)
      · rw [if_neg more]
        refine ⟨small, ?_, below⟩
        by_cases reached : n ≤ 2 ^ order
        · exact .inl reached
        · right
          simp only [not_and, not_lt] at more
          have large := more (by omega)
          omega

theorem get_order_spec (n : Nat) (positive : 0 < n) (fits : n ≤ 2 ^ (maxOrder - 1)) : getOrder n < maxOrder ∧ LeastOrder n (getOrder n) := by
  obtain ⟨small, reached, below⟩ := order_loop_spec n maxOrder 0 (by decide) (by decide) (by simp)
  have nonzero : n ≠ 0 := by omega
  simp only [getOrder, if_neg nonzero]
  refine ⟨by simp only [maxOrder] at small ⊢; omega, ?_, ?_⟩
  · cases reached with
    | inl enough => exact enough
    | inr top => rwa [top]
  · intro other covers
    by_contra lower
    have short := below other (by omega)
    omega

theorem get_order_pow (order : Nat) (small : order < maxOrder) : getOrder (2 ^ order) = order := by
  have fits : 2 ^ order ≤ 2 ^ (maxOrder - 1) := Nat.pow_le_pow_right (by omega) (by omega)
  obtain ⟨_, covers, least⟩ := get_order_spec (2 ^ order) (Nat.two_pow_pos order) fits
  have upper := least order (le_refl _)
  have lower := (Nat.pow_le_pow_iff_right (by omega)).mp covers
  omega

theorem grow_order_spec (remaining fuel order : Nat) (small : order < maxOrder) (fits : 2 ^ order ≤ remaining) :
    growOrder remaining fuel order < maxOrder ∧ 2 ^ growOrder remaining fuel order ≤ remaining := by
  induction fuel generalizing order with
  | zero => exact ⟨small, fits⟩
  | succ fuel ih =>
      unfold growOrder
      by_cases more : 2 ^ (order + 1) ≤ remaining ∧ order + 1 < maxOrder
      · rw [if_pos more]
        exact ih (order + 1) more.2 more.1
      · rw [if_neg more]
        exact ⟨small, fits⟩

end Orders

section Initialising

-- The blocks that are cut so far, with what remains at p.
structure CutInv (s : BuddyState) (base n p remaining : Nat) : Prop where
  tiles : Tiles (⟨p, remaining⟩ :: freeBlocks s.freeList) base n
  counted : ∀ order, s.nrFree order = BitVec.ofNat 32 (s.freeList order).length
  sized : ∀ order, order < maxOrder → ∀ p ∈ s.freeList order, (s.page p).property = 2 ^ order
  flagged : ∀ x, (s.page x).pgProperty = true → ∃ order, order < maxOrder ∧ (s.page x).property = 2 ^ order ∧ x ∈ s.freeList order
  unreserved : ∀ x, base ≤ x → x < base + n → (s.page x).pgReserved = false

theorem cut_step (s : BuddyState) (base n p remaining order : Nat) (inv : CutInv s base n p remaining) (small : order < maxOrder)
    (fits : 2 ^ order ≤ remaining) :
    CutInv ((s.setPage p { s.page p with property := 2 ^ order, pgProperty := true }).addBlock order p) base n (p + 2 ^ order)
      (remaining - 2 ^ order) := by
  have positive := Nat.two_pow_pos order
  have split : Tiles (⟨p, 2 ^ order⟩ :: ⟨p + 2 ^ order, remaining - 2 ^ order⟩ :: freeBlocks s.freeList) base n := by
    rw [← tiles_split, Nat.add_sub_cancel' fits]
    exact inv.tiles
  have fresh : ∀ other, other < maxOrder → p ∉ s.freeList other := by
    intro other smallOther listed
    have member := (free_block s.freeList other p smallOther).mpr listed
    exact tiles_head _ _ split _ (List.mem_cons_of_mem _ member) p (block_holds_first p order) (block_holds_first p other)
  constructor
  · apply tiles_perm _ _ split
    exact (List.Perm.swap _ _ _).trans ((free_blocks_add s.freeList order p small).symm.cons _)
  · intro other
    by_cases here : other = order
    · subst here
      simp only [BuddyState.addBlock, BuddyState.setPage, Function.update_self, List.length_append, List.length_singleton]
      rw [inv.counted other, counted_add]
    · simpa [BuddyState.addBlock, BuddyState.setPage, here] using inv.counted other
  · intro other smallOther q listed
    by_cases first : q = p
    · subst first
      have here : other = order := by
        by_contra here
        exact fresh other smallOther (by simpa [BuddyState.addBlock, BuddyState.setPage, here] using listed)
      simp [BuddyState.addBlock, BuddyState.setPage, here]
    · have before : q ∈ s.freeList other := by
        by_cases here : other = order
        · subst here
          simpa [BuddyState.addBlock, BuddyState.setPage, first] using listed
        · simpa [BuddyState.addBlock, BuddyState.setPage, here] using listed
      simpa [BuddyState.addBlock, BuddyState.setPage, first] using inv.sized other smallOther q before
  · intro x flag
    by_cases first : x = p
    · subst first
      exact ⟨order, small, by simp [BuddyState.addBlock, BuddyState.setPage], by simp [BuddyState.addBlock, BuddyState.setPage]⟩
    · have before : (s.page x).pgProperty = true := by simpa [BuddyState.addBlock, BuddyState.setPage, first] using flag
      obtain ⟨other, smallOther, sized, listed⟩ := inv.flagged x before
      refine ⟨other, smallOther, by simpa [BuddyState.addBlock, BuddyState.setPage, first] using sized, ?_⟩
      by_cases here : other = order
      · subst here
        simp [BuddyState.addBlock, BuddyState.setPage, listed]
      · simpa [BuddyState.addBlock, BuddyState.setPage, here] using listed
  · intro x low high
    by_cases first : x = p
    · subst first
      simpa [BuddyState.addBlock, BuddyState.setPage] using inv.unreserved x low high
    · simpa [BuddyState.addBlock, BuddyState.setPage, first] using inv.unreserved x low high

theorem cut_blocks_spec (s : BuddyState) (base n p remaining fuel : Nat) (inv : CutInv s base n p remaining) (enough : remaining < fuel) :
    ∃ next last, cutBlocks fuel p remaining s = .ok next ∧ CutInv next base n last 0 := by
  induction fuel generalizing p remaining s with
  | zero => omega
  | succ fuel ih =>
      by_cases done : remaining = 0
      · subst done
        exact ⟨s, p, by simp [cutBlocks], inv⟩
      · obtain ⟨small, fits⟩ := grow_order_spec remaining maxOrder 0 (by decide) (by simp; omega)
        have positive := Nat.two_pow_pos (growOrder remaining maxOrder 0)
        obtain ⟨next, last, returns, cut⟩ := ih _ _ _ (cut_step s base n p remaining _ inv small fits) (by omega)
        exact ⟨next, last, by simp only [cutBlocks, if_neg done]; exact returns, cut⟩

theorem tiles_drop_empty (p base n : Nat) (rest : List Block) (tiles : Tiles (⟨p, 0⟩ :: rest) base n) : Tiles rest base n where
  once := by
    intro unit
    have once := tiles.once unit
    have none' : Block.span unit ⟨p, 0⟩ = 0 := by
      rw [span_mk, if_neg (by omega)]
    simpa [none'] using once
  size := by
    have size := tiles.size
    simpa [total_cons] using size

theorem init_spec (pages : FrameArray) (base n : Nat) (positive : 0 < n) :
    ∃ s, buddyInitMemmap (buddyInit pages) base n = .ok s ∧ BuddyInv s base n [] [] := by
  have start : CutInv { buddyInit pages with page := fun p => if base ≤ p ∧ p < base + n then ⟨0, false, false, 0⟩ else pages.page p }
      base n base n := by
    constructor
    · have empty : freeBlocks (buddyInit pages).freeList = [] := by simp [freeBlocks, buddyInit]
      simp only [empty]
      exact ⟨by intro unit; simp [span_mk], by simp [total]⟩
    · simp [buddyInit]
    · simp [buddyInit]
    · intro x flag
      by_cases inside : base ≤ x ∧ x < base + n
      · simp [inside] at flag
      · simp [inside, (pages.reserved x).2] at flag
    · intro x low high
      simp [low, high]
  obtain ⟨s, last, returns, cut⟩ := cut_blocks_spec _ base n base n (n + 1) start (by omega)
  refine ⟨s, ?_, ?_⟩
  · simp only [buddyInitMemmap, positive, decide_true, check_true, ok_bind]
    exact returns
  · constructor
    · exact tiles_drop_empty last base n _ cut.tiles
    · simp
    · exact cut.counted
    · exact cut.sized
    · intro x flag
      obtain ⟨order, small, sized, listed⟩ := cut.flagged x flag
      exact ⟨order, small, sized, .inl (.inr listed)⟩
    · simp
    · exact cut.unreserved

end Initialising

section Allocating

variable {s : BuddyState} {base n p : Nat} {cur held : List Block}

theorem split_block_spec (target count : Nat) (inv : BuddyInv s base n [⟨p, 2 ^ (target + count)⟩] held) (small : target + count < maxOrder)
    (clear : (s.page p).pgProperty = false) : BuddyInv (splitBlock p target count s) base n [⟨p, 2 ^ target⟩] held := by
  induction count generalizing s with
  | zero => exact inv
  | succ count ih =>
      have lower : target + count < maxOrder := by omega
      have next : BuddyInv (halved s (target + count) p) base n [⟨p, 2 ^ (target + count)⟩] held := inv.halve lower clear
      have apart : p ≠ p + 2 ^ (target + count) := by
        have positive := Nat.two_pow_pos (target + count)
        omega
      apply ih next (by omega)
      simpa [halved, BuddyState.addBlock, BuddyState.setPage, apart] using clear

theorem find_order_spec (inv : BuddyInv s base n cur held) (target found : Nat) (search : findOrder s target = some found) :
    target ≤ found ∧ found < maxOrder ∧ ∃ p rest, s.freeList found = p :: rest := by
  have range := List.mem_range'_1.mp (List.mem_of_find?_eq_some search)
  have some' := List.find?_some search
  refine ⟨range.1, by omega, ?_⟩
  cases list : s.freeList found with
  | nil =>
      rw [inv.counted found, list] at some'
      simp at some'
  | cons p rest => exact ⟨p, rest, rfl⟩

-- What an allocation does: nothing, or a block of the least order is granted.
def Granted (s : BuddyState) (base n : Nat) (held : List Block) (asked : Nat) (next : BuddyState) : Option Nat → Prop
  | none => next = s
  | some p => ∃ order, order < maxOrder ∧ LeastOrder asked order ∧ (next.page p).property = 2 ^ order ∧
      BuddyInv next base n [] (⟨p, 2 ^ order⟩ :: held)

theorem alloc_spec (inv : BuddyInv s base n [] held) (asked : Nat) (positive : 0 < asked) :
    ∃ result next, buddyAllocPages s asked = .ok (result, next) ∧ Granted s base n held asked next result := by
  by_cases large : 2 ^ (maxOrder - 1) < asked
  · refine ⟨none, s, ?_, rfl⟩
    simp only [buddyAllocPages, positive, decide_true, check_true, ok_bind, if_pos large, pure_ok]
  · obtain ⟨small, least⟩ := get_order_spec asked positive (by omega)
    cases search : findOrder s (getOrder asked) with
    | none =>
        refine ⟨none, s, ?_, rfl⟩
        simp only [buddyAllocPages, positive, decide_true, check_true, ok_bind, if_neg large, search, pure_ok]
    | some found =>
        obtain ⟨above, smallFound, p, rest, list⟩ := find_order_spec inv (getOrder asked) found search
        have member : p ∈ s.freeList found := by simp [list]
        obtain ⟨deleted, deletes, same⟩ := del_block_taken member
        have inHand := inv.take smallFound member
        have clear : ((taken s found p).page p).pgProperty = false := by simp [taken, BuddyState.setPage]
        have span : getOrder asked + (found - getOrder asked) = found := by omega
        have wide : BuddyInv (taken s found p) base n [⟨p, 2 ^ (getOrder asked + (found - getOrder asked))⟩] held := by
          rw [span]
          exact inHand
        have halves := split_block_spec (getOrder asked) (found - getOrder asked) wide (by omega) clear
        refine ⟨some p, _, ?_, getOrder asked, small, least, ?_, halves.grant⟩
        · simp only [buddyAllocPages, positive, decide_true, check_true, ok_bind, if_neg large, search, list, deletes, same, pure_ok]
        · simp [BuddyState.setPage]

end Allocating

section Freeing

variable {s : BuddyState} {base n p order : Nat} {held : List Block}

theorem find_buddy_eq (pages : FrameArray) (p order : Nat) : findBuddy pages p order =
    if pages.npage ≤ p ^^^ 2 ^ order then .error .invalidPa else if p ^^^ 2 ^ order < nbase then .error .outOfArray else .ok (p ^^^ 2 ^ order) := by
  have flips : (page2pa p ^^^ (2 ^ order * 4096)) >>> pgshift = p ^^^ 2 ^ order := by
    have scaled : 2 ^ order * 4096 = 2 ^ order <<< pgshift := by
      rw [Nat.shiftLeft_eq]
      rfl
    rw [scaled, page2pa, Nat.shiftRight_xor_distrib, Nat.shiftLeft_shiftRight, Nat.shiftLeft_shiftRight]
  simp only [findBuddy, pa2page, flips]

-- A block in the array has its buddy not below it.
theorem buddy_in_array (p order : Nat) (inside : nbase ≤ p) (small : order < maxOrder) : nbase ≤ p ^^^ 2 ^ order := by
  have base : nbase = 2 ^ 19 := by decide
  have lower : 2 ^ order < 2 ^ 19 := Nat.pow_lt_pow_right (by omega) (by simp only [maxOrder] at small; omega)
  have high : (p ^^^ 2 ^ order) / 2 ^ 19 = p / 2 ^ 19 := by rw [Nat.xor_div_two_pow, Nat.div_eq_of_lt lower, Nat.xor_zero]
  rw [base] at inside ⊢
  have one : 1 ≤ p / 2 ^ 19 := (Nat.one_le_div_iff (by decide)).mpr inside
  rw [← high] at one
  exact (Nat.one_le_div_iff (by decide)).mp one

theorem BuddyInv.merge (inv : BuddyInv s base n [⟨p, 2 ^ order⟩] held) (small : order + 1 < maxOrder)
    (listed : p ^^^ 2 ^ order ∈ s.freeList order) :
    let low := if p ^^^ 2 ^ order < p then p ^^^ 2 ^ order else p
    let next := taken s order (p ^^^ 2 ^ order)
    BuddyInv (next.setPage low { next.page low with property := 2 ^ (order + 1) }) base n [⟨low, 2 ^ (order + 1)⟩] held := by
  have both := inv.take (by omega) listed
  have positive := Nat.two_pow_pos order
  cases flipped_pair p order with
  | inl above =>
      have notBelow : ¬ p ^^^ 2 ^ order < p := by omega
      simp only [if_neg notBelow]
      have swapped : BuddyInv (taken s order (p ^^^ 2 ^ order)) base n [⟨p, 2 ^ order⟩, ⟨p + 2 ^ order, 2 ^ order⟩] held := by
        apply both.reorder _ _ _ (List.Perm.refl held)
        rw [above]
        exact List.Perm.swap _ _ _
      apply BuddyInv.join p swapped small
      rw [← above, Nat.xor_assoc, Nat.xor_self, Nat.xor_zero]
  | inr below =>
      obtain ⟨large, minus⟩ := below
      have isBelow : p ^^^ 2 ^ order < p := by omega
      simp only [if_pos isBelow]
      have back : (p ^^^ 2 ^ order) + 2 ^ order = p := by omega
      apply BuddyInv.join (p ^^^ 2 ^ order) _ small
      · rw [back]
      · rw [back]
        exact both

-- The loop ends with a block in hand, or at a buddy above the frame array.
theorem merge_loop_spec (pages : FrameArray) (fuel : Nat) (low : nbase ≤ base) (inv : BuddyInv s base n [⟨p, 2 ^ order⟩] held)
    (size : (s.page p).property = 2 ^ order) (small : order < maxOrder) (enough : maxOrder < order + fuel + 1) :
    mergeLoop pages fuel order p s = .error .invalidPa ∨
      ∃ order' p' next, mergeLoop pages fuel order p s = .ok (order', p', next) ∧ order' < maxOrder ∧ (next.page p').property = 2 ^ order' ∧
        BuddyInv next base n [⟨p', 2 ^ order'⟩] held := by
  induction fuel generalizing s p order with
  | zero => omega
  | succ fuel ih =>
      by_cases top : order < maxOrder - 1
      · have inside : base ≤ p := ((tiles_covers inv.tiles p).mp ⟨_, by simp, block_holds_first p order⟩).1
        have array := buddy_in_array p order (low.trans inside) small
        by_cases outside : pages.npage ≤ p ^^^ 2 ^ order
        · left
          simp [mergeLoop, top, find_buddy_eq, outside]
        · have found : findBuddy pages p order = .ok (p ^^^ 2 ^ order) := by rw [find_buddy_eq, if_neg outside, if_neg (by omega)]
          by_cases free : isBuddyFree s (p ^^^ 2 ^ order) order = true
          · have listed := inv.buddy_listed free
            obtain ⟨deleted, deletes, same⟩ := del_block_taken listed
            have merged := inv.merge (by omega) listed
            have again := ih merged (by simp [BuddyState.setPage]) (by omega) (by omega)
            simpa only [mergeLoop, if_pos top, found, ok_bind, if_pos free, deletes, same] using again
          · right
            exact ⟨order, p, s, by simp [mergeLoop, top, found, free], small, size, inv⟩
      · right
        exact ⟨order, p, s, by simp [mergeLoop, top], small, size, inv⟩

-- A live block passes the assertions, and the loop decides.
theorem free_unfolds (pages : FrameArray) (inv : BuddyInv s base n [] held) (member : ⟨p, 2 ^ order⟩ ∈ held) (small : order < maxOrder) :
    buddyFreePages pages s p (2 ^ order) =
      (mergeLoop pages maxOrder order p (s.setPage p { s.page p with property := 2 ^ order, pgProperty := true }) >>= fun result =>
        pure (result.2.2.addBlock result.1 result.2.1)) := by
  have positive := Nat.two_pow_pos order
  have inside := (tiles_covers inv.tiles p).mp ⟨_, List.mem_append_left _ member, block_holds_first p order⟩
  have clear : (s.page p).pgProperty = false := inv.owned _ member
  have unreserved := inv.unreserved p inside.1 inside.2
  simp only [buddyFreePages, positive, decide_true, check_true, ok_bind, unreserved, clear, Bool.not_false, Bool.and_self, get_order_pow order small]

theorem free_spec (pages : FrameArray) (low : nbase ≤ base) (inv : BuddyInv s base n [] held) (member : ⟨p, 2 ^ order⟩ ∈ held)
    (small : order < maxOrder) :
    buddyFreePages pages s p (2 ^ order) = .error .invalidPa ∨
      ∃ next, buddyFreePages pages s p (2 ^ order) = .ok next ∧ BuddyInv next base n [] (held.erase ⟨p, 2 ^ order⟩) := by
  have given := inv.giveBack member small
  rw [free_unfolds pages inv member small]
  cases merge_loop_spec pages maxOrder low given (by simp [BuddyState.setPage]) small (by omega) with
  | inl panics =>
      left
      rw [panics]
      rfl
  | inr ends =>
      obtain ⟨order', p', next, returns, small', size, last⟩ := ends
      right
      exact ⟨_, by rw [returns]; rfl, last.insert small' size⟩

end Freeing

section Counting

theorem total_flat (orders : List Nat) (freeList : Nat → List Nat) :
    total (orders.flatMap fun order => (freeList order).map fun p => ⟨p, 2 ^ order⟩) =
      (orders.map fun order => (freeList order).length * 2 ^ order).sum := by
  induction orders with
  | nil => rfl
  | cons order rest ih =>
      have here : total ((freeList order).map fun p => (⟨p, 2 ^ order⟩ : Block)) = (freeList order).length * 2 ^ order := by
        simp [total, Function.comp_def]
      rw [List.flatMap_cons, total_append, here, ih, List.map_cons, List.sum_cons]

theorem nr_free_pages_spec (s : BuddyState) (base n : Nat) (held : List Block) (inv : BuddyInv s base n [] held) (bound : n < 2 ^ 32) :
    buddyNrFreePages s + total held = n := by
  have whole : total held + total (freeBlocks s.freeList) = n := by
    rw [← total_append]
    exact inv.tiles.size
  have counts : buddyNrFreePages s = total (freeBlocks s.freeList) := by
    rw [freeBlocks, total_flat, buddyNrFreePages]
    congr 1
    apply List.map_congr_left
    intro order inRange
    have part : (s.freeList order).length * 2 ^ order ≤ total (freeBlocks s.freeList) := by
      rw [freeBlocks, total_flat]
      exact List.le_sum_of_mem (List.mem_map.mpr ⟨order, inRange, rfl⟩)
    rw [inv.counted order, BitVec.toNat_mul, BitVec.toNat_ofNat, BitVec.toNat_ofNat, ← Nat.mul_mod, Nat.mod_eq_of_lt (by omega)]
  omega

end Counting

namespace System

variable {pages : FrameArray}

structure SystemInv (region : Region pages) (s : System) : Prop where
  buddy : BuddyInv s.buddy region.base region.n [] (s.live.map Grant.block)
  granted : ∀ g ∈ s.live, ∃ order, order < maxOrder ∧ g.pages = 2 ^ order ∧ LeastOrder g.asked order

-- What the allocator promises: the free and the live blocks tile the region, each
-- list has the blocks of its order, a live block has the least power of two of
-- pages for what was asked, and the count of free pages is right.
structure Safe (region : Region pages) (s : System) : Prop where
  apart : (s.live.map Grant.block ++ freeBlocks s.buddy.freeList).Pairwise Block.Apart
  covers : ∀ page, Covers (s.live.map Grant.block ++ freeBlocks s.buddy.freeList) page ↔ region.base ≤ page ∧ page < region.base + region.n
  sized : ∀ order, order < maxOrder → ∀ p ∈ s.buddy.freeList order, (s.buddy.page p).property = 2 ^ order
  granted : ∀ g ∈ s.live, ∃ order, g.pages = 2 ^ order ∧ LeastOrder g.asked order
  counted : buddyNrFreePages s.buddy + total (s.live.map Grant.block) = region.n

section Calls

variable {region : Region pages} {s : System}

theorem region_bound (region : Region pages) : region.n < 2 ^ 32 := by
  have mapped := pages.mapped
  have inside := region.inside
  omega

theorem boot_inv (region : Region pages) : ∃ s, boot region = .ok s ∧ SystemInv region s := by
  obtain ⟨buddy, returns, inv⟩ := init_spec pages region.base region.n region.positive
  exact ⟨⟨buddy, [], []⟩, by simp [boot, returns], ⟨inv, by simp⟩⟩

theorem alloc_inv (inv : SystemInv region s) (asked : Nat) (positive : 0 < asked) :
    ∃ next, s.call pages (.alloc asked) = .ok next ∧ SystemInv region next := by
  obtain ⟨result, buddy, returns, granted⟩ := alloc_spec inv.buddy asked positive
  cases result with
  | none =>
      refine ⟨{ s with buddy := buddy }, by simp [call, returns], ?_⟩
      obtain rfl : buddy = s.buddy := granted
      exact inv
  | some p =>
      obtain ⟨order, small, least, size, kept⟩ := granted
      refine ⟨_, by simp only [call, returns, ok_bind, pure_ok]; rfl, ?_, ?_⟩
      · simpa [Grant.block, size] using kept
      · intro g live
        cases List.mem_cons.mp live with
        | inl same => exact ⟨order, small, by rw [same, size], by rw [same]; exact least⟩
        | inr before => exact inv.granted g before

-- A free of a live block returns, or its loop looks for a buddy above the array.
theorem free_inv (inv : SystemInv region s) (g : Grant) (live : g ∈ s.live) :
    s.call pages (.free g) = .error .invalidPa ∨ ∃ next, s.call pages (.free g) = .ok next ∧ SystemInv region next := by
  obtain ⟨order, small, size, _⟩ := inv.granted g live
  have isBlock : g.block = ⟨g.page, 2 ^ order⟩ := by rw [Grant.block, size]
  have member : (⟨g.page, 2 ^ order⟩ : Block) ∈ s.live.map Grant.block := isBlock ▸ List.mem_map_of_mem live
  cases free_spec pages region.inside.1 inv.buddy member small with
  | inl panics =>
      left
      simp only [call, size, panics]
      rfl
  | inr ends =>
      obtain ⟨buddy, returns, kept⟩ := ends
      right
      refine ⟨{ s with buddy := buddy, live := s.live.erase g }, by simp [call, size, returns], ?_, ?_⟩
      · apply kept.reorder [] _ (List.Perm.refl [])
        have erased := (List.perm_cons_erase live).map Grant.block
        rw [List.map_cons, isBlock] at erased
        exact ((List.perm_cons_erase member).symm.trans erased).cons_inv
      · exact fun other inside => inv.granted other (List.mem_of_mem_erase inside)

theorem step_inv (event : Call) (next : System) (inv : SystemInv region s) (enabled : s.Enabled event) (taken : s.step pages event = some next) :
    SystemInv region next := by
  unfold step at taken
  cases event with
  | alloc n =>
      obtain ⟨reached, returns, kept⟩ := alloc_inv inv n enabled
      simp only [returns, Option.some.injEq] at taken
      exact taken ▸ kept
  | free g =>
      cases free_inv inv g enabled with
      | inl panics => simp [panics] at taken
      | inr ends =>
          obtain ⟨reached, returns, kept⟩ := ends
          simp only [returns, Option.some.injEq] at taken
          exact taken ▸ kept

theorem SystemInv.safe (inv : SystemInv region s) : Safe region s where
  apart := tiles_apart inv.buddy.tiles
  covers := tiles_covers inv.buddy.tiles
  sized := inv.buddy.sized
  granted := by
    intro g live
    obtain ⟨order, _, size, least⟩ := inv.granted g live
    exact ⟨order, size, least⟩
  counted := nr_free_pages_spec s.buddy region.base region.n _ inv.buddy (region_bound region)

end Calls

-- The same for every run of allocations and of frees of live blocks that return:
-- also where a free leaves a stale flag behind.
theorem buddy_safe (region : Region pages) (start : System) (booted : boot region = .ok start) (events : List Call) (final : System)
    (enabled : Throughout (step pages) Enabled start events) (ran : run (step pages) start events = some final) : Safe region final := by
  obtain ⟨s, boots, inv⟩ := boot_inv region
  obtain rfl := Except.ok.inj (boots.symm.trans booted)
  exact (run_invariant (step pages) Enabled (SystemInv region) (fun s event next inv enabled taken => step_inv event next inv enabled taken)
    events s final inv enabled ran).safe

-- Eleven pages from an odd frame on, in an array of sixteen.
def sixteenFrames : FrameArray := ⟨0x80010, fun _ => ⟨0, true, false, 0⟩, by decide, fun _ => ⟨rfl, rfl⟩⟩

def elevenPages : Region sixteenFrames := ⟨0x80001, 11, by decide, by decide⟩

def elevenCalls : List Call :=
  [.alloc 1, .alloc 1, .alloc 3, .free ⟨0x8000b, 1, 1⟩, .alloc 2, .free ⟨0x80001, 3, 4⟩, .alloc 1, .free ⟨0x80009, 1, 1⟩]

theorem buddy_safe_eleven : ∃ start final, boot elevenPages = .ok start ∧ run (step sixteenFrames) start elevenCalls = some final ∧
    Safe elevenPages final := by
  have boots : (boot elevenPages).toOption.isSome = true := by decide +kernel
  cases booted : boot elevenPages with
  | error fault => simp [booted, Except.toOption] at boots
  | ok start =>
      have checked : ((boot elevenPages).toOption.map fun start =>
          decide (Throughout (step sixteenFrames) Enabled start elevenCalls) && (run (step sixteenFrames) start elevenCalls).isSome) = some true := by
        decide +kernel
      rw [booted] at checked
      simp only [Except.toOption, Option.map_some, Option.some.injEq, Bool.and_eq_true, decide_eq_true_eq] at checked
      obtain ⟨met, returns⟩ := checked
      obtain ⟨final, ran⟩ := Option.isSome_iff_exists.mp returns
      exact ⟨start, final, rfl, ran, buddy_safe elevenPages start booted elevenCalls final met ran⟩

end System

end Ucore.Pmm.Buddy
