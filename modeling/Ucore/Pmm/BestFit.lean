import Ucore.Pmm.FirstFitRuns

set_option autoImplicit false

namespace Ucore.Pmm

open Ucore.Lib

-- best_fit_pmm.c differs from default_pmm.c in the search for a block only.
def bestFitInitMemmap (fuel : Nat) (s : PmmState) (base : PageId) (n : Nat) : Except Fault PmmState := defaultInitMemmap fuel s base n

def bestFitFreePages (fuel : Nat) (s : PmmState) (base : PageId) (n : Nat) : Except Fault PmmState := defaultFreePages fuel s base n

-- The search of best_fit_alloc_pages, from the node before le, with the page and
-- the size found so far.
def bestLoop (n : Nat) (s : PmmState) (le : ListNode) (page : Option PageId) (minSize : Nat) : Nat → Except Fault (Option PageId)
  | 0 => .error .outOfFuel
  | fuel + 1 =>
      match s.links.next le with
      | .freeList => .ok page
      | .pageLink p =>
          if n ≤ (s.page p).property ∧ (s.page p).property < minSize then bestLoop n s (.pageLink p) (some p) (s.page p).property fuel
          else bestLoop n s (.pageLink p) page minSize fuel

def bestFitAllocPages (fuel : Nat) (s : PmmState) (n : Nat) : Except Fault (Option PageId × PmmState) :=
  if 0 < n then
    if s.nrFree < n then .ok (none, s)
    else (bestLoop n s .freeList none (uint (s.nrFree + 1)) fuel).map fun
      | none => (none, s)
      | some page => (some page, splitBlock s page n)
  else .error .assertFailed

-- Of the blocks that are large enough, b is a smallest, and the lowest of these.
structure Best (n : Nat) (below : List Block) (b : Block) (above : List Block) : Prop where
  fits : n ≤ b.size
  lowest : ∀ a ∈ below, n ≤ a.size → b.size < a.size
  smallest : ∀ c ∈ above, n ≤ c.size → b.size ≤ c.size

-- What the search knows after the blocks before.
def Scanned (n : Nat) (before : List Block) (page : Option PageId) (minSize : Nat) : Prop :=
  (page = none ∧ ∀ a ∈ before, a.size < n) ∨
    ∃ below b above, before = below ++ b :: above ∧ page = some b.addr ∧ minSize = b.size ∧ Best n below b above

theorem scanned_next (n : Nat) (before : List Block) (page : Option PageId) (minSize : Nat) (b : Block) (scanned : Scanned n before page minSize)
    (limit : page = none → b.size < minSize) :
    if n ≤ b.size ∧ b.size < minSize then Scanned n (before ++ [b]) (some b.addr) b.size else Scanned n (before ++ [b]) page minSize := by
  by_cases better : n ≤ b.size ∧ b.size < minSize
  · rw [if_pos better]
    refine .inr ⟨before, b, [], rfl, rfl, rfl, better.1, fun a member fits => ?_, by simp⟩
    cases scanned with
    | inl nothing =>
        have small := nothing.2 a member
        omega
    | inr found =>
        obtain ⟨below, best, above, rfl, _, same, least⟩ := found
        have bound : best.size ≤ a.size := by
          rcases List.mem_append.mp member with inBelow | inRest
          · exact Nat.le_of_lt (least.lowest a inBelow fits)
          · rcases List.mem_cons.mp inRest with here | inAbove
            · exact here ▸ Nat.le_refl a.size
            · exact least.smallest a inAbove fits
        omega
  · rw [if_neg better]
    cases scanned with
    | inl nothing =>
        obtain ⟨rfl, small⟩ := nothing
        have less := limit rfl
        refine .inl ⟨rfl, fun a member => ?_⟩
        rcases List.mem_append.mp member with old | here
        · exact small a old
        · rw [List.mem_singleton.mp here]
          omega
    | inr found =>
        obtain ⟨below, best, above, rfl, named, same, least⟩ := found
        refine .inr ⟨below, best, above ++ [b], by simp, named, same, least.fits, least.lowest, fun c member fits => ?_⟩
        rcases List.mem_append.mp member with old | here
        · exact least.smallest c old fits
        · rw [List.mem_singleton.mp here] at fits ⊢
          omega

theorem best_loop_spec (n : Nat) (s : PmmState) (before after : List Block) (prev next : ListNode) (page : Option PageId) (minSize fuel : Nat)
    (gap : Links.Gap ListNode.freeList (before.map headNode) (after.map headNode) prev next)
    (represents : Represents s (before ++ after)) (scanned : Scanned n before page minSize)
    (limit : page = none → ∀ b ∈ after, b.size < minSize) (enough : after.length < fuel) :
    ∃ page' minSize', bestLoop n s prev page minSize fuel = .ok page' ∧ Scanned n (before ++ after) page' minSize' := by
  induction after generalizing before prev next page minSize fuel with
  | nil =>
      cases fuel with
      | zero => simp at enough
      | succ rest =>
          have atEnd := gap_end before prev next gap
          have onward := (Links.ring_gap s.links .freeList _ _ prev next gap (by simpa using represents.ring)).1
          exact ⟨page, minSize, by simp [bestLoop, onward, atEnd], by simpa using scanned⟩
  | cons b after ih =>
      cases fuel with
      | zero => simp at enough
      | succ rest =>
          have onward := (Links.ring_gap s.links .freeList _ _ prev next gap (by simpa using represents.ring)).1
          obtain ⟨here, following, nextGap⟩ := gap_step before after b prev next gap
          have size : (s.page b.addr).property = b.size := represents.sized b (by simp)
          have step := scanned_next n before page minSize b scanned fun none' => limit none' b (by simp)
          have flat : before ++ b :: after = (before ++ [b]) ++ after := by simp
          rw [flat] at represents ⊢
          by_cases better : n ≤ b.size ∧ b.size < minSize
          · rw [if_pos better] at step
            obtain ⟨page', minSize', found, done⟩ := ih (before ++ [b]) (headNode b) following (some b.addr) b.size rest nextGap represents step
              (by simp) (by simpa using enough)
            refine ⟨page', minSize', ?_, done⟩
            simp only [headNode] at here found
            simp only [bestLoop, onward, here, size, if_pos better, found]
          · rw [if_neg better] at step
            obtain ⟨page', minSize', found, done⟩ := ih (before ++ [b]) (headNode b) following page minSize rest nextGap represents step
              (fun none' c member => limit none' c (by simp [member])) (by simpa using enough)
            refine ⟨page', minSize', ?_, done⟩
            simp only [headNode] at here found
            simp only [bestLoop, onward, here, size, if_neg better, found]

-- best_fit_alloc_pages on a list of free blocks: nothing when none is large enough,
-- and else the lowest of the smallest that are.
theorem best_fit_alloc_pages_spec (fuel : Nat) (s : PmmState) (n : Nat) (blocks : List Block) (represents : Represents s blocks) (positive : 0 < n)
    (small : s.nrFree + 1 < 2 ^ 32) (enough : s.nrFree < fuel) :
    (bestFitAllocPages fuel s n = .ok (none, s) ∧ ∀ b ∈ blocks, b.size < n) ∨
      ∃ below b above, blocks = below ++ b :: above ∧ Best n below b above ∧
        bestFitAllocPages fuel s n = .ok (some b.addr, splitBlock s b.addr n) := by
  have sum := represents.counted
  by_cases short : s.nrFree < n
  · refine .inl ⟨by simp [bestFitAllocPages, positive, short], fun b member => ?_⟩
    have bound := size_le_total blocks b member
    omega
  · obtain ⟨prev, next, gap⟩ := Links.gap_exists ListNode.freeList (([] : List Block).map headNode) (blocks.map headNode)
    obtain rfl := gap_start _ prev next gap
    have start : Scanned n [] none (uint (s.nrFree + 1)) := .inl ⟨rfl, by simp⟩
    have limit : ∀ b ∈ blocks, b.size < uint (s.nrFree + 1) := by
      intro b member
      have bound := size_le_total blocks b member
      rw [uint_small _ small]
      omega
    have length := length_le_total blocks represents.nonempty
    obtain ⟨page, minSize, search, scanned⟩ := best_loop_spec n s [] blocks .freeList next none (uint (s.nrFree + 1)) fuel gap represents start
      (fun _ => limit) (by omega)
    cases scanned with
    | inl nothing =>
        obtain ⟨rfl, smaller⟩ := nothing
        exact .inl ⟨by simp [bestFitAllocPages, positive, short, search, Except.map], smaller⟩
    | inr found =>
        obtain ⟨below, b, above, split, rfl, _, best⟩ := found
        exact .inr ⟨below, b, above, split, best, by simp [bestFitAllocPages, positive, short, search, Except.map]⟩

-- What best_fit_alloc_pages has done when it returns a page: the block that begins
-- there was the best one, what is left of it is back in its place, and no page but
-- the two heads is written.
structure BestTaken (s s' : PmmState) (n : Nat) (blocks below : List Block) (b : Block) (above : List Block) : Prop where
  listed : blocks = below ++ b :: above
  best : Best n below b above
  after : Represents s' (below ++ remainder n b above)
  cleared : (s'.page b.addr).pgProperty = false
  counted : s'.nrFree + n = s.nrFree
  others : ∀ p, p ≠ b.addr → (n < b.size → p ≠ b.addr + n) → s'.page p = s.page p

theorem best_fit_exact (s : PmmState) (blocks : List Block) (n : Nat) (represents : Represents s blocks) (positive : 0 < n)
    (small : s.nrFree + 1 < 2 ^ 32) :
    (∀ s', bestFitAllocPages loopBound s n = .ok (none, s') ↔ s' = s ∧ ∀ b ∈ blocks, b.size < n) ∧
    (∀ page s', bestFitAllocPages loopBound s n = .ok (some page, s') →
      ∃ below b above, page = b.addr ∧ BestTaken s s' n blocks below b above) ∧
    ∃ page s', bestFitAllocPages loopBound s n = .ok (page, s') := by
  have sum := represents.counted
  rcases best_fit_alloc_pages_spec loopBound s n blocks represents positive small (by simp only [loopBound]; omega) with
    ⟨result, smaller⟩ | ⟨below, b, above, rfl, best, result⟩
  · rw [result]
    refine ⟨fun s' => ⟨fun same => ⟨by simpa [eq_comm] using same, smaller⟩, fun same => by rw [same.1]⟩, fun page s' same => ?_, none, s, rfl⟩
    simp at same
  · have fits := best.fits
    have bound := size_le_total (below ++ b :: above) b (by simp)
    have size : (s.page b.addr).property = b.size := represents.sized b (by simp)
    obtain ⟨after, _⟩ := split_block_spec s n below above b represents positive fits (by omega)
    obtain ⟨_, _, totals, _⟩ := remainder_spec n below above b represents.ascending represents.nonempty fits
    have page := split_block_page s n b size positive (by omega)
    rw [result]
    refine ⟨fun s' => ⟨fun same => by simp at same, fun none' => ?_⟩, fun p s' same => ?_, some b.addr, _, rfl⟩
    · have large := none'.2 b (by simp)
      omega
    · simp only [Except.ok.injEq, Prod.mk.injEq, Option.some.injEq] at same
      obtain ⟨rfl, rfl⟩ := same
      refine ⟨below, b, above, rfl, rfl, best, after, by simp [page], ?_, fun p notHead notRest => ?_⟩
      · have counted := after.counted
        omega
      · rw [page p, if_neg notHead, if_neg fun rest => notRest rest.1 rest.2]

section Example

-- Free are the pages 0 to 2, 5 to 6 and 9 to 10 of 12.
def threeBlocks : List Block := [⟨0, 3⟩, ⟨5, 2⟩, ⟨9, 2⟩]

def threeState : PmmState where
  page := fun p =>
    if p = 0 then ⟨0, false, true, 3⟩
    else if p = 5 ∨ p = 9 then ⟨0, false, true, 2⟩
    else if p < 12 then ⟨0, false, false, 0⟩ else ⟨0, true, false, 0⟩
  links :=
    { next := fun node => match node with
        | .freeList => .pageLink 0
        | .pageLink p => if p = 0 then .pageLink 5 else if p = 5 then .pageLink 9 else .freeList
      prev := fun node => match node with
        | .freeList => .pageLink 9
        | .pageLink p => if p = 9 then .pageLink 5 else if p = 5 then .pageLink 0 else .freeList }
  nrFree := 7

theorem three_represents : Represents threeState threeBlocks where
  ring := by
    refine ⟨?_, by decide⟩
    simp [Links.Linked, threeBlocks, threeState, headNode]
  ascending := by simp [Ascending, threeBlocks, Block.Before, Block.stop]
  nonempty := by
    intro b member
    simp only [threeBlocks, List.mem_cons, List.not_mem_nil, or_false] at member
    rcases member with rfl | rfl | rfl <;> decide
  sized := by simp [threeBlocks, threeState]
  flagged := by
    intro p _
    by_cases first : p = 0
    · simp [threeState, threeBlocks, first]
    · by_cases others : p = 5 ∨ p = 9
      · cases others with
        | inl same => simp [threeState, threeBlocks, same]
        | inr same => simp [threeState, threeBlocks, same]
      · have apart : ¬ ∃ b ∈ threeBlocks, b.addr = p := by
          rintro ⟨b, member, rfl⟩
          simp only [threeBlocks, List.mem_cons, List.not_mem_nil, or_false] at member
          rcases member with rfl | rfl | rfl <;> simp at first others
        by_cases inside : p < 12 <;> simp [threeState, first, others, inside, apart]
  usable := by
    intro p covered
    have inside : p < 12 := by
      simp only [Covers, threeBlocks, List.mem_cons, List.not_mem_nil, or_false, exists_eq_or_imp, exists_eq_left, Block.Holds, Block.stop] at covered
      omega
    simp only [threeState, if_pos inside]
    split
    · rfl
    · split <;> rfl
  counted := rfl

-- Two pages come from the second block, not from the first or the third.
theorem best_fit_exact_three : (∃ s', bestFitAllocPages loopBound threeState 2 = .ok (some 5, s') ∧ Represents s' [⟨0, 3⟩, ⟨9, 2⟩]) ∧
    bestFitAllocPages loopBound threeState 4 = .ok (none, threeState) := by
  have two := best_fit_exact threeState threeBlocks 2 three_represents (by decide) (by decide)
  have four := best_fit_exact threeState threeBlocks 4 three_represents (by decide) (by decide)
  refine ⟨?_, (four.1 threeState).mpr ⟨rfl, by decide⟩⟩
  obtain ⟨_, found, page, s', result⟩ := two
  have first : (bestFitAllocPages loopBound threeState 2).toOption.map Prod.fst = some (some 5) := by decide +kernel
  obtain rfl : page = some 5 := by simpa [result, Except.toOption] using first
  obtain ⟨below, b, above, named, taken⟩ := found 5 s' result
  refine ⟨s', result, ?_⟩
  have split : below = [⟨0, 3⟩] ∧ b = ⟨5, 2⟩ ∧ above = [⟨9, 2⟩] := by
    have listed : [⟨0, 3⟩, ⟨5, 2⟩, ⟨9, 2⟩] = below ++ b :: above := taken.listed
    rcases below with _ | ⟨first, _ | ⟨second, _ | ⟨third, rest⟩⟩⟩
    · obtain ⟨rfl, _⟩ : (⟨0, 3⟩ : Block) = b ∧ _ := by simpa using listed
      exact absurd named (by decide)
    · simp only [List.cons_append, List.nil_append, List.cons.injEq] at listed
      obtain ⟨rfl, rfl, rfl⟩ := listed
      exact ⟨rfl, rfl, rfl⟩
    · simp only [List.cons_append, List.nil_append, List.cons.injEq] at listed
      obtain ⟨_, _, rfl, _⟩ := listed
      exact absurd named (by decide)
    · simp at listed
  obtain ⟨rfl, rfl, rfl⟩ := split
  exact taken.after

end Example

end Ucore.Pmm
