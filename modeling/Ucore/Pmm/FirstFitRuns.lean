import Ucore.Lib.Run
import Ucore.Pmm.FirstFit

set_option autoImplicit false

namespace Ucore.Pmm

open Ucore.Lib

-- The allocator with the blocks its callers hold.
structure System where
  pmm : PmmState
  live : List Block

inductive Call where
  | initMemmap (base : PageId) (n : Nat)
  | allocPages (n : Nat)
  | freePages (base : PageId) (n : Nat)
deriving DecidableEq, Repr

-- More rounds than any list of blocks with a 32-bit page count can take.
def loopBound : Nat := 2 ^ 32

def System.step (s : System) : Call → Option System
  | .initMemmap base n => (defaultInitMemmap loopBound s.pmm base n).toOption.map fun pmm => { s with pmm := pmm }
  | .allocPages n =>
      (defaultAllocPages loopBound s.pmm n).toOption.map fun
        | (none, pmm) => { s with pmm := pmm }
        | (some page, pmm) => ⟨pmm, ⟨page, n⟩ :: s.live⟩
  | .freePages base n =>
      if ⟨base, n⟩ ∈ s.live then
        (defaultFreePages loopBound s.pmm base n).toOption.map fun pmm => ⟨pmm, s.live.erase ⟨base, n⟩⟩
      else none

-- page_init reserves every page and pmm->init empties the list.
def System.boot (page : PageId → Page) (links : Links ListNode) : System := ⟨defaultInit ⟨page, links, 0⟩, []⟩

def insertsBelow (links : Links ListNode) (base : PageId) : Bool :=
  match links.prev .freeList with
  | .freeList => true
  | .pageLink last => base < last

-- The insertion never runs off the tail of the list, and the page count fits
-- in an unsigned int.
def BelowTail (s : System) : Call → Prop
  | .initMemmap base n => insertsBelow s.pmm.links base ∧ s.pmm.nrFree + total s.live + n < 2 ^ 32
  | .allocPages _ => True
  | .freePages base _ => insertsBelow s.pmm.links base

instance (s : System) (call : Call) : Decidable (BelowTail s call) :=
  match call with
  | .initMemmap base n => inferInstanceAs (Decidable (insertsBelow s.pmm.links base ∧ s.pmm.nrFree + total s.live + n < 2 ^ 32))
  | .allocPages _ => inferInstanceAs (Decidable True)
  | .freePages base _ => inferInstanceAs (Decidable (insertsBelow s.pmm.links base = true))

structure Inv (s : System) (blocks : List Block) : Prop where
  represents : Represents s.pmm blocks
  livePositive : Nonempty s.live
  liveUsable : ∀ p, Covers s.live p → (s.pmm.page p).pgReserved = false
  liveApart : s.live.Pairwise Block.Apart
  liveFree : ∀ p, Covers s.live p → ¬ Covers blocks p
  bounded : s.pmm.nrFree + total s.live < 2 ^ 32

theorem holds_cons (base n p : Nat) : Block.Holds ⟨base, n + 1⟩ p ↔ p = base ∨ Block.Holds ⟨base + 1, n⟩ p := by
  simp only [Block.Holds, Block.stop]
  omega

theorem init_pages_spec (page page' : PageId → Page) (base : PageId) (n : Nat) :
    initPages page base n = .ok page' ↔ (∀ p, Block.Holds ⟨base, n⟩ p → (page p).pgReserved = true) ∧
      ∀ p, (Block.Holds ⟨base, n⟩ p → page' p = ⟨0, false, false, 0⟩) ∧ (¬ Block.Holds ⟨base, n⟩ p → page' p = page p) := by
  induction n generalizing page base with
  | zero =>
      have none : ∀ p, ¬ Block.Holds ⟨base, 0⟩ p := fun p => by simp only [Block.Holds, Block.stop]; omega
      simp only [initPages, Except.ok.injEq, none, false_implies, implies_true, not_false_eq_true, true_implies, true_and]
      exact ⟨fun same p => by rw [same], fun same => funext fun p => (same p).symm⟩
  | succ n ih =>
      have first : ∀ p, Block.Holds ⟨base + 1, n⟩ p → p ≠ base := fun p holds => by
        simp only [Block.Holds, Block.stop] at holds
        omega
      by_cases reserved : (page base).pgReserved
      · simp only [initPages, reserved, if_true, ih, holds_cons]
        constructor
        · rintro ⟨rest, result⟩
          refine ⟨fun p holds => ?_, fun p => ⟨fun holds => ?_, fun outside => ?_⟩⟩
          · rcases holds with atBase | later
            · exact atBase ▸ reserved
            · simpa [first p later] using rest p later
          · by_cases later : Block.Holds ⟨base + 1, n⟩ p
            · exact (result p).1 later
            · have atBase := holds.resolve_right later
              simpa [atBase] using (result p).2 later
          · have notBase : p ≠ base := fun same => outside (Or.inl same)
            simpa [notBase] using (result p).2 fun later => outside (Or.inr later)
        · rintro ⟨all, result⟩
          refine ⟨fun p later => by simpa [first p later] using all p (Or.inr later), fun p => ⟨fun later => ?_, fun outside => ?_⟩⟩
          · exact (result p).1 (Or.inr later)
          · by_cases atBase : p = base
            · simpa [atBase] using (result p).1 (Or.inl atBase)
            · simpa [atBase] using (result p).2 (by simp [atBase, outside])
      · simp only [initPages, reserved, Bool.false_eq_true, if_false, reduceCtorEq, false_iff]
        exact fun met => reserved (met.1 base ((holds_cons base n base).mpr (Or.inl rfl)))

theorem clear_pages_spec (page : PageId → Page) (base : PageId) (n : Nat)
    (clear : ∀ p, Block.Holds ⟨base, n⟩ p → (page p).pgReserved = false ∧ (page p).pgProperty = false) :
    ∃ page', clearPages page base n = .ok page' ∧
      ∀ p, (page' p).pgReserved = (page p).pgReserved ∧ (page' p).pgProperty = (page p).pgProperty ∧
        (page' p).property = (page p).property := by
  induction n generalizing page base with
  | zero => exact ⟨page, rfl, fun _ => ⟨rfl, rfl, rfl⟩⟩
  | succ n ih =>
      obtain ⟨free, headless⟩ := clear base ((holds_cons base n base).mpr (Or.inl rfl))
      obtain ⟨page', result, same⟩ := ih
        (Function.update page base { page base with pgReserved := false, pgProperty := false, ref := 0 }) (base + 1) (by
          intro p later
          have notBase : p ≠ base := by
            simp only [Block.Holds, Block.stop] at later
            omega
          simpa [notBase] using clear p ((holds_cons base n p).mpr (Or.inr later)))
      refine ⟨page', by simpa [clearPages, free, headless] using result, fun p => ?_⟩
      by_cases atBase : p = base
      · simpa [atBase, free, headless] using same base
      · simpa [atBase] using same p

-- Only the two flags and the sizes of the heads tell what a state stands for.
theorem represents_pages (s : PmmState) (page' : PageId → Page) (blocks : List Block) (represents : Represents s blocks)
    (usable : ∀ p, Covers blocks p → (page' p).pgReserved = false)
    (sized : ∀ b ∈ blocks, (page' b.addr).property = (s.page b.addr).property)
    (flagged : ∀ p, (page' p).pgReserved = false → ((page' p).pgProperty = true ↔ ∃ b ∈ blocks, b.addr = p)) :
    Represents { s with page := page' } blocks :=
  ⟨represents.ring, represents.ascending, represents.nonempty,
    fun b member => (sized b member).trans (represents.sized b member), flagged, usable, represents.counted⟩

theorem inserts_below_spec (s : PmmState) (blocks : List Block) (represents : Represents s blocks) (base : PageId)
    (below : insertsBelow s.links base = true) : blocks = [] ∨ ∃ b ∈ blocks, base < b.addr := by
  cases blocks using List.reverseRecOn with
  | nil => exact Or.inl rfl
  | append_singleton front a _ =>
      obtain ⟨prev, next, gap⟩ := Links.gap_exists ListNode.freeList (front.map headNode) ([] : List ListNode)
      have last := (Links.ring_node s.links .freeList (headNode a) _ _ prev next gap (by simpa using represents.ring)).2.2.2
      have atEnd := gap_end front prev next gap
      have larger : base < a.addr := by simpa [insertsBelow, ← atEnd, last, headNode] using below
      exact Or.inr ⟨a, by simp, larger⟩

theorem default_alloc_pages_spec (fuel : Nat) (s : PmmState) (n : Nat) (blocks : List Block) (represents : Represents s blocks)
    (positive : 0 < n) (small : s.nrFree < 2 ^ 32) (enough : s.nrFree < fuel) :
    ∃ s', defaultAllocPages fuel s n = .ok ((takeFirst n blocks).map Prod.fst, s') ∧
      Represents s' ((takeFirst n blocks).elim blocks Prod.snd) ∧
      ∀ p, (s'.page p).pgReserved = (s.page p).pgReserved := by
  by_cases short : s.nrFree < n
  · have none : takeFirst n blocks = none := by
      rw [take_first_none]
      intro b member
      have bound := size_le_total blocks b member
      have sum := represents.counted
      omega
    refine ⟨s, ?_, by simpa [none] using represents, fun _ => rfl⟩
    simp [defaultAllocPages, positive, short, none]
  · obtain ⟨prev, next, gap⟩ := Links.gap_exists ListNode.freeList (([] : List Block).map headNode) (blocks.map headNode)
    obtain rfl := gap_start _ prev next gap
    have search := alloc_loop_spec n s [] blocks .freeList next fuel gap represents (by
      have length := length_le_total blocks represents.nonempty
      have sum := represents.counted
      omega)
    cases taken : takeFirst n blocks with
    | none =>
        refine ⟨s, ?_, represents, fun _ => rfl⟩
        simp [defaultAllocPages, positive, short, search, taken, Except.map]
    | some found =>
        obtain ⟨addr, rest⟩ := found
        obtain ⟨below, b, above, rfl, _, fits, rfl, rfl⟩ := take_first_some n addr blocks rest taken
        obtain ⟨split, frame⟩ := split_block_spec s n below above b represents positive fits small
        refine ⟨splitBlock s b.addr n, ?_, split, frame⟩
        simp [defaultAllocPages, positive, short, search, taken, Except.map]

theorem default_init_memmap_spec (fuel : Nat) (s : PmmState) (base : PageId) (n : Nat) (blocks : List Block)
    (represents : Represents s blocks) (positive : 0 < n)
    (reserved : ∀ p, Block.Holds ⟨base, n⟩ p → (s.page p).pgReserved = true) (below : insertsBelow s.links base = true)
    (small : s.nrFree + n < 2 ^ 32) (enough : s.nrFree < fuel) :
    ∃ s' front back, defaultInitMemmap fuel s base n = .ok s' ∧ blocks = front ++ back ∧
      Represents s' (front ++ ⟨base, n⟩ :: back) ∧
      ∀ p, (s.page p).pgReserved = false → (s'.page p).pgReserved = false := by
  let page' : PageId → Page := fun p => if base ≤ p ∧ p < base + n then ⟨0, false, false, 0⟩ else s.page p
  have result : initPages s.page base n = .ok page' := by
    rw [init_pages_spec]
    refine ⟨reserved, fun p => ⟨fun holds => if_pos holds, fun outside => if_neg outside⟩⟩
  have apart : ∀ p, Block.Holds ⟨base, n⟩ p → ¬ Covers blocks p := by
    intro p holds covered
    have free := represents.usable p covered
    rw [reserved p holds] at free
    cases free
  have inside : ∀ p, Block.Holds ⟨base, n⟩ p → page' p = ⟨0, false, false, 0⟩ := fun p holds => if_pos holds
  have outside : ∀ p, ¬ Block.Holds ⟨base, n⟩ p → page' p = s.page p := fun p away => if_neg away
  have headless : ∀ p, Block.Holds ⟨base, n⟩ p → ¬ ∃ b ∈ blocks, b.addr = p := by
    rintro p holds ⟨b, member, rfl⟩
    have size := represents.nonempty b member
    exact apart b.addr holds ⟨b, member, by simp only [Block.Holds, Block.stop]; omega⟩
  have cleared : Represents { s with page := page' } blocks := by
    apply represents_pages s page' blocks represents
    · intro p covered
      rw [outside p fun holds => apart p holds covered]
      exact represents.usable p covered
    · intro b member
      rw [outside b.addr fun holds => headless b.addr holds ⟨b, member, rfl⟩]
    · intro p free
      by_cases holds : Block.Holds ⟨base, n⟩ p
      · simpa [inside p holds] using headless p holds
      · rw [outside p holds] at free ⊢
        exact represents.flagged p free
  have length := length_le_total blocks represents.nonempty
  have sum := represents.counted
  obtain ⟨s', front, back, linked, split, after, frame⟩ := link_block_spec fuel base n { s with page := page' } blocks cleared
    positive (fun p holds => congrArg Page.pgReserved (inside p holds)) apart
    (inserts_below_spec s blocks represents base below) small (by omega)
  refine ⟨s', front, back, ?_, split, after, fun p free => ?_⟩
  · simp only [defaultInitMemmap, if_pos positive, result]
    exact linked
  · rw [frame p]
    by_cases holds : Block.Holds ⟨base, n⟩ p
    · simp [inside p holds]
    · simpa [outside p holds] using free

theorem default_free_pages_spec (fuel : Nat) (s : PmmState) (base : PageId) (n : Nat) (blocks : List Block)
    (represents : Represents s blocks) (positive : 0 < n)
    (usable : ∀ p, Block.Holds ⟨base, n⟩ p → (s.page p).pgReserved = false)
    (apart : ∀ p, Block.Holds ⟨base, n⟩ p → ¬ Covers blocks p) (below : insertsBelow s.links base = true)
    (small : s.nrFree + n < 2 ^ 32) (enough : s.nrFree < fuel) :
    ∃ s' front back, defaultFreePages fuel s base n = .ok s' ∧ blocks = front ++ back ∧
      Ascending (front ++ ⟨base, n⟩ :: back) ∧ Nonempty (front ++ ⟨base, n⟩ :: back) ∧
      Represents s' (joinBetween front ⟨base, n⟩ back) ∧ ∀ p, (s'.page p).pgReserved = (s.page p).pgReserved := by
  have headless : ∀ p, Block.Holds ⟨base, n⟩ p → (s.page p).pgProperty = false := by
    intro p holds
    rw [Bool.eq_false_iff]
    intro flag
    obtain ⟨b, member, rfl⟩ := (represents.flagged p (usable p holds)).mp flag
    have size := represents.nonempty b member
    exact apart b.addr holds ⟨b, member, by simp only [Block.Holds, Block.stop]; omega⟩
  obtain ⟨page', result, same⟩ := clear_pages_spec s.page base n fun p holds => ⟨usable p holds, headless p holds⟩
  have cleared : Represents { s with page := page' } blocks := by
    apply represents_pages s page' blocks represents
    · intro p covered
      rw [(same p).1]
      exact represents.usable p covered
    · exact fun b _ => (same b.addr).2.2
    · intro p free
      rw [(same p).2.1]
      exact represents.flagged p (by rwa [(same p).1] at free)
  have length := length_le_total blocks represents.nonempty
  have sum := represents.counted
  obtain ⟨linked, front, back, ran, split, after, frame⟩ := link_block_spec fuel base n { s with page := page' } blocks cleared
    positive (fun p holds => by rw [(same p).1]; exact usable p holds) apart
    (inserts_below_spec s blocks represents base below) small (by omega)
  have grown : linked.nrFree < 2 ^ 32 := by
    have newSum := after.counted
    rw [split] at sum
    simp only [total_append, total_cons] at newSum sum
    omega
  obtain ⟨merged, kept⟩ := merge_spec linked front back ⟨base, n⟩ after grown
  refine ⟨_, front, back, ?_, split, after.ascending, after.nonempty, merged, fun p => ?_⟩
  · simp only [defaultFreePages, if_pos positive, result]
    simp only [Except.bind, ran]
    rfl
  · rw [kept p, frame p]
    exact (same p).1

theorem boot_inv (page : PageId → Page) (links : Links ListNode) (reserved : ∀ p, (page p).pgReserved = true) :
    Inv (System.boot page links) [] := by
  constructor
  · constructor
    · rw [List.map_nil, Links.ring_empty]
      simp [System.boot, defaultInit, listInit, Links.setNext, Links.setPrev]
    · exact List.Pairwise.nil
    · exact fun _ member => absurd member List.not_mem_nil
    · exact fun _ member => absurd member List.not_mem_nil
    · intro p free
      exact absurd (reserved p) (by simpa [System.boot, defaultInit] using free)
    · intro p covered
      obtain ⟨_, member, _⟩ := covered
      exact absurd member List.not_mem_nil
    · rfl
  · exact fun _ member => absurd member List.not_mem_nil
  · intro p covered
    obtain ⟨_, member, _⟩ := covered
    exact absurd member List.not_mem_nil
  · exact List.Pairwise.nil
  · intro p covered
    obtain ⟨_, member, _⟩ := covered
    exact absurd member List.not_mem_nil
  · simp [System.boot, defaultInit, total]

theorem init_inv (s : System) (blocks : List Block) (base : PageId) (n : Nat) (inv : Inv s blocks) (positive : 0 < n)
    (reserved : ∀ p, Block.Holds ⟨base, n⟩ p → (s.pmm.page p).pgReserved = true) (below : BelowTail s (.initMemmap base n)) :
    ∃ pmm front back, s.step (.initMemmap base n) = some { s with pmm := pmm } ∧ blocks = front ++ back ∧
      Inv { s with pmm := pmm } (front ++ ⟨base, n⟩ :: back) := by
  obtain ⟨below, small⟩ := below
  obtain ⟨pmm, front, back, result, split, after, frame⟩ := default_init_memmap_spec loopBound s.pmm base n blocks inv.represents
    positive reserved below (by omega) (by have := inv.bounded; simp only [loopBound]; omega)
  refine ⟨pmm, front, back, by simp [System.step, result, Except.toOption], split, after, inv.livePositive,
    fun p covered => frame p (inv.liveUsable p covered), inv.liveApart, fun p covered inList => ?_, ?_⟩
  · have free := inv.liveUsable p covered
    simp only [covers_append, covers_cons] at inList
    rcases inList with inFront | inNew | inBack
    · exact inv.liveFree p covered (by rw [split, covers_append]; exact Or.inl inFront)
    · rw [reserved p inNew] at free
      cases free
    · exact inv.liveFree p covered (by rw [split, covers_append]; exact Or.inr inBack)
  · have newSum := after.counted
    have sum := inv.represents.counted
    rw [split] at sum
    simp only [total_append, total_cons] at newSum sum
    simp only
    omega

-- A block gives its first pages to a caller.
theorem take_inv (s : System) (pmm : PmmState) (n : Nat) (below above : List Block) (b : Block) (inv : Inv s (below ++ b :: above))
    (positive : 0 < n) (fits : n ≤ b.size) (after : Represents pmm (below ++ remainder n b above))
    (frame : ∀ p, (pmm.page p).pgReserved = (s.pmm.page p).pgReserved) : Inv ⟨pmm, ⟨b.addr, n⟩ :: s.live⟩ (below ++ remainder n b above) := by
  have bounded := inv.bounded
  have sum := inv.represents.counted
  have newSum := after.counted
  obtain ⟨_, _, totals, covers, apart⟩ := remainder_spec n below above b inv.represents.ascending inv.represents.nonempty fits
  refine ⟨after, ?_, ?_, ?_, ?_, ?_⟩
  · intro c member
    rcases List.mem_cons.mp member with here | old
    · exact here ▸ positive
    · exact inv.livePositive c old
  · intro p covered
    rw [frame p]
    rcases (covers_cons _ _ p).mp covered with here | old
    · exact inv.represents.usable p ((covers p).mpr (Or.inr here))
    · exact inv.liveUsable p old
  · refine List.pairwise_cons.mpr ⟨fun c member p both => ?_, inv.liveApart⟩
    exact inv.liveFree p ⟨c, member, both.2⟩ ((covers p).mpr (Or.inr both.1))
  · intro p covered inRest
    rcases (covers_cons _ _ p).mp covered with here | old
    · exact apart p here inRest
    · exact inv.liveFree p old ((covers p).mpr (Or.inl inRest))
  · simp only [total_cons]
    omega

theorem refuse_inv (s : System) (pmm : PmmState) (blocks : List Block) (inv : Inv s blocks) (after : Represents pmm blocks)
    (frame : ∀ p, (pmm.page p).pgReserved = (s.pmm.page p).pgReserved) : Inv { s with pmm := pmm } blocks := by
  have bounded := inv.bounded
  have sum := inv.represents.counted
  have newSum := after.counted
  refine ⟨after, inv.livePositive, fun p covered => (frame p).trans (inv.liveUsable p covered), inv.liveApart, inv.liveFree, ?_⟩
  simp only
  omega

theorem alloc_inv (s : System) (blocks : List Block) (n : Nat) (inv : Inv s blocks) (positive : 0 < n) :
    ∃ next blocks', s.step (.allocPages n) = some next ∧ Inv next blocks' := by
  have bounded := inv.bounded
  obtain ⟨pmm, result, after, frame⟩ := default_alloc_pages_spec loopBound s.pmm n blocks inv.represents positive
    (by omega) (by simp only [loopBound]; omega)
  cases taken : takeFirst n blocks with
  | none =>
      rw [taken] at result after
      exact ⟨{ s with pmm := pmm }, blocks, by simp [System.step, result, Except.toOption], refuse_inv s pmm blocks inv after frame⟩
  | some found =>
      obtain ⟨addr, rest⟩ := found
      rw [taken] at result after
      obtain ⟨below, b, above, rfl, _, fits, rfl, rfl⟩ := take_first_some n addr blocks rest taken
      exact ⟨⟨pmm, ⟨b.addr, n⟩ :: s.live⟩, _, by simp [System.step, result, Except.toOption],
        take_inv s pmm n below above b inv positive fits after frame⟩

theorem free_inv (s : System) (blocks : List Block) (base : PageId) (n : Nat) (inv : Inv s blocks) (held : ⟨base, n⟩ ∈ s.live)
    (below : BelowTail s (.freePages base n)) :
    ∃ pmm front back, s.step (.freePages base n) = some ⟨pmm, s.live.erase ⟨base, n⟩⟩ ∧ blocks = front ++ back ∧
      Ascending (front ++ ⟨base, n⟩ :: back) ∧ Nonempty (front ++ ⟨base, n⟩ :: back) ∧
      Inv ⟨pmm, s.live.erase ⟨base, n⟩⟩ (joinBetween front ⟨base, n⟩ back) := by
  have bounded := inv.bounded
  have sum := inv.represents.counted
  have shape := List.perm_cons_erase held
  have liveTotal : total s.live = n + total (s.live.erase ⟨base, n⟩) := by
    rw [total, (shape.map Block.size).sum_eq]
    simp [total]
  have remaining : ∀ p, Covers (s.live.erase ⟨base, n⟩) p → Covers s.live p := by
    rintro p ⟨b, member, holds⟩
    exact ⟨b, List.mem_of_mem_erase member, holds⟩
  have liveApart := (shape.pairwise_iff (fun both p held => both p held.symm)).mp inv.liveApart
  obtain ⟨pmm, front, back, result, split, ascending, nonempty, after, frame⟩ := default_free_pages_spec loopBound s.pmm base n
    blocks inv.represents (inv.livePositive _ held) (fun p holds => inv.liveUsable p ⟨_, held, holds⟩)
    (fun p holds => inv.liveFree p ⟨_, held, holds⟩) below (by omega) (by simp only [loopBound]; omega)
  obtain ⟨_, _, totals, covers⟩ := join_between_spec front back ⟨base, n⟩ ascending nonempty
  refine ⟨pmm, front, back, by simp [System.step, held, result, Except.toOption], split, ascending, nonempty, after,
    fun b member => inv.livePositive b (List.mem_of_mem_erase member),
    fun p covered => (frame p).trans (inv.liveUsable p (remaining p covered)), (List.pairwise_cons.mp liveApart).2,
    fun p covered inList => ?_, ?_⟩
  · have parts := (covers p).mp inList
    simp only [covers_append, covers_cons] at parts
    have old : ¬ Covers blocks p := inv.liveFree p (remaining p covered)
    rw [split, covers_append] at old
    have apart : ¬ Block.Holds ⟨base, n⟩ p := fun holds => by
      obtain ⟨b, member, inside⟩ := covered
      exact (List.pairwise_cons.mp liveApart).1 b member p ⟨holds, inside⟩
    tauto
  · have newSum := after.counted
    rw [totals] at newSum
    rw [split] at sum
    simp only [total_append, total_cons] at newSum sum
    simp only
    omega

theorem step_inv (s next : System) (blocks : List Block) (call : Call) (inv : Inv s blocks) (below : BelowTail s call)
    (stepped : s.step call = some next) : ∃ blocks', Inv next blocks' := by
  cases call with
  | initMemmap base n =>
      by_cases positive : 0 < n
      · have reserved : ∀ p, Block.Holds ⟨base, n⟩ p → (s.pmm.page p).pgReserved = true := by
          cases pages : initPages s.pmm.page base n with
          | error fault => simp [System.step, defaultInitMemmap, positive, pages, Except.bind, Except.toOption] at stepped
          | ok page' => exact ((init_pages_spec s.pmm.page page' base n).mp pages).1
        obtain ⟨pmm, front, back, same, _, after⟩ := init_inv s blocks base n inv positive reserved below
        rw [stepped, Option.some.injEq] at same
        exact ⟨_, same ▸ after⟩
      · simp [System.step, defaultInitMemmap, positive, Except.toOption] at stepped
  | allocPages n =>
      by_cases positive : 0 < n
      · obtain ⟨other, blocks', same, after⟩ := alloc_inv s blocks n inv positive
        rw [stepped, Option.some.injEq] at same
        exact ⟨blocks', same ▸ after⟩
      · simp [System.step, defaultAllocPages, positive, Except.toOption] at stepped
  | freePages base n =>
      by_cases held : ⟨base, n⟩ ∈ s.live
      · obtain ⟨pmm, front, back, same, _, _, _, after⟩ := free_inv s blocks base n inv held below
        rw [stepped, Option.some.injEq] at same
        exact ⟨_, same ▸ after⟩
      · simp [System.step, held] at stepped

-- What a state of the allocator owes its callers.
structure Sound (s : System) (blocks : List Block) : Prop where
  represents : Represents s.pmm blocks
  circular : ∀ node ∈ ListNode.freeList :: blocks.map headNode,
    s.pmm.links.next (s.pmm.links.prev node) = node ∧ s.pmm.links.prev (s.pmm.links.next node) = node
  disjoint : blocks.Pairwise Block.Apart
  allocReturns : ∀ n, 0 < n → ∃ page pmm, defaultAllocPages loopBound s.pmm n = .ok (page, pmm)
  allocApart : ∀ n page pmm, defaultAllocPages loopBound s.pmm n = .ok (some page, pmm) →
    ∀ b ∈ s.live, Block.Apart ⟨page, n⟩ b
  allocNull : ∀ n pmm, defaultAllocPages loopBound s.pmm n = .ok (none, pmm) → ∀ b ∈ blocks, b.size < n
  initReturns : ∀ base n, 0 < n → (∀ p, Block.Holds ⟨base, n⟩ p → (s.pmm.page p).pgReserved = true) →
    BelowTail s (.initMemmap base n) → ∃ pmm, defaultInitMemmap loopBound s.pmm base n = .ok pmm
  freeReturns : ∀ b ∈ s.live, BelowTail s (.freePages b.addr b.size) →
    ∃ pmm, defaultFreePages loopBound s.pmm b.addr b.size = .ok pmm

theorem inv_sound (s : System) (blocks : List Block) (inv : Inv s blocks) : Sound s blocks := by
  have bounded := inv.bounded
  have alloc : ∀ n, 0 < n → ∃ pmm, defaultAllocPages loopBound s.pmm n = .ok ((takeFirst n blocks).map Prod.fst, pmm) := by
    intro n positive
    obtain ⟨pmm, result, _⟩ := default_alloc_pages_spec loopBound s.pmm n blocks inv.represents positive
      (by omega) (by simp only [loopBound]; omega)
    exact ⟨pmm, result⟩
  have request : ∀ n page pmm, defaultAllocPages loopBound s.pmm n = .ok (page, pmm) → page = (takeFirst n blocks).map Prod.fst := by
    intro n page pmm result
    by_cases positive : 0 < n
    · obtain ⟨other, same⟩ := alloc n positive
      rw [result] at same
      exact (Prod.mk.inj (Except.ok.inj same)).1
    · simp [defaultAllocPages, positive] at result
  refine ⟨inv.represents, fun node member => Links.ring_inverse _ _ _ inv.represents.ring node member, ?_, ?_, ?_, ?_, ?_, ?_⟩
  · refine inv.represents.ascending.imp fun before unit both => ?_
    simp only [Block.Before, Block.Holds, Block.stop] at before both
    omega
  · intro n positive
    obtain ⟨pmm, result⟩ := alloc n positive
    exact ⟨_, pmm, result⟩
  · intro n page pmm result b member unit both
    have found := request n (some page) pmm result
    cases taken : takeFirst n blocks with
    | none => simp [taken] at found
    | some pair =>
        obtain ⟨addr, rest⟩ := pair
        have here : page = addr := by simpa [taken] using found
        obtain ⟨_, _, _, covers, _⟩ :=
          take_first_spec n addr blocks rest inv.represents.ascending inv.represents.nonempty taken
        exact inv.liveFree unit ⟨b, member, both.2⟩ ((covers unit).mpr (Or.inr (here ▸ both.1)))
  · intro n pmm result
    have missing := request n none pmm result
    exact (take_first_none n blocks).mp (by simpa using missing.symm)
  · intro base n positive reserved below
    obtain ⟨_, _, _, stepped, _⟩ := init_inv s blocks base n inv positive reserved below
    cases result : defaultInitMemmap loopBound s.pmm base n with
    | error fault => simp [System.step, result, Except.toOption] at stepped
    | ok pmm => exact ⟨pmm, rfl⟩
  · intro b held below
    obtain ⟨_, _, _, stepped, _⟩ := free_inv s blocks b.addr b.size inv held below
    cases result : defaultFreePages loopBound s.pmm b.addr b.size with
    | error fault => simp [System.step, result, Except.toOption] at stepped
    | ok pmm => exact ⟨pmm, rfl⟩

-- Runs that never insert at the tail of the list keep the free list whole.
theorem first_fit_sound (page : PageId → Page) (links : Links ListNode) (reserved : ∀ p, (page p).pgReserved = true)
    (calls : List Call) (s : System) (below : Throughout System.step BelowTail (System.boot page links) calls)
    (ran : run System.step (System.boot page links) calls = some s) : ∃ blocks, Sound s blocks := by
  obtain ⟨blocks, inv⟩ := run_invariant System.step BelowTail (fun s => ∃ blocks, Inv s blocks)
    (fun s call next ⟨blocks, inv⟩ met stepped => step_inv s next blocks call inv met stepped) calls (System.boot page links) s
    ⟨[], boot_inv page links reserved⟩ below ran
  exact ⟨blocks, inv_sound s blocks inv⟩

def reservedPage (_ : PageId) : Page := ⟨0, true, false, 0⟩
def looseLinks : Links ListNode := ⟨id, id⟩

-- Every free here gives a block back below another one.
theorem first_fit_sound_three : ∃ s, run System.step (System.boot reservedPage looseLinks)
      [.initMemmap 0 4, .allocPages 1, .allocPages 1, .freePages 1 1, .allocPages 2, .freePages 0 1] = some s ∧
    ∃ blocks, Sound s blocks := by
  cases ran : run System.step (System.boot reservedPage looseLinks)
      [.initMemmap 0 4, .allocPages 1, .allocPages 1, .freePages 1 1, .allocPages 2, .freePages 0 1] with
  | none =>
      have returns : (run System.step (System.boot reservedPage looseLinks)
        [.initMemmap 0 4, .allocPages 1, .allocPages 1, .freePages 1 1, .allocPages 2, .freePages 0 1]).isSome := by
        decide +kernel
      simp [ran] at returns
  | some s =>
      exact ⟨s, rfl, first_fit_sound reservedPage looseLinks (fun _ => rfl)
        [.initMemmap 0 4, .allocPages 1, .allocPages 1, .freePages 1 1, .allocPages 2, .freePages 0 1] s (by decide +kernel) ran⟩

-- Freeing the pages 2 and 3 while page 0 is the whole list links page 2 to
-- itself. It stays on the list when it is allocated again.
def tailCalls : List Call :=
  [.initMemmap 0 4, .allocPages 1, .allocPages 1, .allocPages 2, .freePages 0 1, .freePages 2 2, .allocPages 2, .freePages 1 1]

theorem first_fit_double_allocation : ∃ s, run System.step (System.boot reservedPage looseLinks) tailCalls = some s ∧
    ⟨2, 2⟩ ∈ s.live ∧ (∃ pmm, defaultAllocPages loopBound s.pmm 2 = .ok (some 2, pmm)) ∧ ¬ ∃ blocks, Sound s blocks := by
  have trace : (run System.step (System.boot reservedPage looseLinks) tailCalls).map
      (fun s => (s.live, (defaultAllocPages loopBound s.pmm 2).toOption.map Prod.fst)) = some ([⟨2, 2⟩], some (some 2)) := by
    decide +kernel
  obtain ⟨s, ran, facts⟩ := Option.map_eq_some_iff.mp trace
  obtain ⟨live, again⟩ := Prod.mk.inj facts
  have held : ⟨2, 2⟩ ∈ s.live := by simp [live]
  have result : ∃ pmm, defaultAllocPages loopBound s.pmm 2 = .ok (some 2, pmm) := by
    cases taken : defaultAllocPages loopBound s.pmm 2 with
    | error fault => simp [taken, Except.toOption] at again
    | ok pair => exact ⟨pair.2, by rw [← Option.some.inj (by simpa [taken, Except.toOption] using again : some pair.1 = some (some 2))]⟩
  refine ⟨s, ran, held, result, ?_⟩
  rintro ⟨blocks, sound⟩
  obtain ⟨pmm, taken⟩ := result
  exact sound.allocApart 2 2 pmm taken ⟨2, 2⟩ held 2 (by simp [Block.Holds, Block.stop])

end Ucore.Pmm
