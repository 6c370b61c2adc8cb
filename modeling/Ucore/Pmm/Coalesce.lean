import Ucore.Pmm.BestFit

set_option autoImplicit false

namespace Ucore.Pmm

open Ucore.Lib

-- The pmm_manager that is compiled in: default_pmm_manager or best_fit_pmm_manager.
inductive Manager where
  | defaultPmm
  | bestFitPmm
deriving DecidableEq, Repr

def Manager.initMemmap : Manager → PmmState → PageId → Nat → Except Fault PmmState
  | .defaultPmm => defaultInitMemmap loopBound
  | .bestFitPmm => bestFitInitMemmap loopBound

def Manager.allocPages : Manager → PmmState → Nat → Except Fault (Option PageId × PmmState)
  | .defaultPmm => defaultAllocPages loopBound
  | .bestFitPmm => bestFitAllocPages loopBound

def Manager.freePages : Manager → PmmState → PageId → Nat → Except Fault PmmState
  | .defaultPmm => defaultFreePages loopBound
  | .bestFitPmm => bestFitFreePages loopBound

def System.stepBy (manager : Manager) (s : System) : Call → Option System
  | .initMemmap base n => (manager.initMemmap s.pmm base n).toOption.map fun pmm => { s with pmm := pmm }
  | .allocPages n =>
      (manager.allocPages s.pmm n).toOption.map fun
        | (none, pmm) => { s with pmm := pmm }
        | (some page, pmm) => ⟨pmm, ⟨page, n⟩ :: s.live⟩
  | .freePages base n =>
      if ⟨base, n⟩ ∈ s.live then
        (manager.freePages s.pmm base n).toOption.map fun pmm => ⟨pmm, s.live.erase ⟨base, n⟩⟩
      else none

-- The pages that init_memmap was given.
def ranges : List Call → List Block
  | [] => []
  | .initMemmap base n :: calls => ⟨base, n⟩ :: ranges calls
  | .allocPages _ :: calls => ranges calls
  | .freePages _ _ :: calls => ranges calls

-- The block that goes on the list goes below one that is there.
def NotLast (s : System) : Call → Prop
  | .initMemmap base _ => insertsBelow s.pmm.links base
  | .allocPages _ => True
  | .freePages base _ => insertsBelow s.pmm.links base

instance (s : System) (call : Call) : Decidable (NotLast s call) :=
  match call with
  | .initMemmap base _ => inferInstanceAs (Decidable (insertsBelow s.pmm.links base = true))
  | .allocPages _ => inferInstanceAs (Decidable True)
  | .freePages base _ => inferInstanceAs (Decidable (insertsBelow s.pmm.links base = true))

theorem step_by_init (manager : Manager) (s : System) (base : PageId) (n : Nat) :
    s.stepBy manager (.initMemmap base n) = s.step (.initMemmap base n) := by
  cases manager <;> rfl

theorem step_by_free (manager : Manager) (s : System) (base : PageId) (n : Nat) :
    s.stepBy manager (.freePages base n) = s.step (.freePages base n) := by
  cases manager <;> rfl

-- Either manager refuses, or gives away the first pages of some block.
theorem alloc_pages_by (manager : Manager) (s : PmmState) (n : Nat) (blocks : List Block) (represents : Represents s blocks) (positive : 0 < n)
    (small : s.nrFree + 1 < 2 ^ 32) :
    (∃ pmm, manager.allocPages s n = .ok (none, pmm) ∧ Represents pmm blocks ∧ ∀ p, (pmm.page p).pgReserved = (s.page p).pgReserved) ∨
      ∃ pmm below b above, blocks = below ++ b :: above ∧ n ≤ b.size ∧ manager.allocPages s n = .ok (some b.addr, pmm) ∧
        Represents pmm (below ++ remainder n b above) ∧ ∀ p, (pmm.page p).pgReserved = (s.page p).pgReserved := by
  have room : s.nrFree < loopBound := by
    simp only [loopBound]
    omega
  cases manager with
  | defaultPmm =>
      obtain ⟨pmm, result, after, frame⟩ := default_alloc_pages_spec loopBound s n blocks represents positive (by omega) room
      cases taken : takeFirst n blocks with
      | none =>
          rw [taken] at result after
          exact .inl ⟨pmm, result, after, frame⟩
      | some found =>
          obtain ⟨addr, rest⟩ := found
          rw [taken] at result after
          obtain ⟨below, b, above, split, _, fits, rfl, rfl⟩ := take_first_some n addr blocks rest taken
          exact .inr ⟨pmm, below, b, above, split, fits, result, after, frame⟩
  | bestFitPmm =>
      rcases best_fit_alloc_pages_spec loopBound s n blocks represents positive small room with ⟨result, _⟩ | ⟨below, b, above, rfl, best, result⟩
      · exact .inl ⟨s, result, represents, fun _ => rfl⟩
      · have counted := represents.counted
        have bound := size_le_total (below ++ b :: above) b (by simp)
        obtain ⟨after, frame⟩ := split_block_spec s n below above b represents positive best.fits (by omega)
        exact .inr ⟨_, below, b, above, rfl, best.fits, result, after, frame⟩

-- The free blocks and the blocks of the callers make up the pages of init_memmap,
-- and no two free blocks touch.
structure WholeInv (s : System) (blocks produced : List Block) : Prop where
  inv : Inv s blocks
  whole : Coalesced blocks
  shared : ∀ p, Covers produced p ↔ Covers blocks p ∨ Covers s.live p
  counted : total blocks + total s.live = total produced
  apart : produced.Pairwise Block.Apart
  positive : Nonempty produced

theorem boot_whole (page : PageId → Page) (links : Links ListNode) (reserved : ∀ p, (page p).pgReserved = true) :
    WholeInv (System.boot page links) [] [] where
  inv := boot_inv page links reserved
  whole := fun _ member => absurd member List.not_mem_nil
  shared := by simp [Covers, System.boot]
  counted := by simp [total, System.boot]
  apart := List.Pairwise.nil
  positive := fun _ member => absurd member List.not_mem_nil

theorem whole_init (manager : Manager) (s next : System) (blocks produced : List Block) (base : PageId) (n : Nat) (whole : WholeInv s blocks produced)
    (below : NotLast s (.initMemmap base n)) (small : total produced + n < 2 ^ 32) (untouched : ∀ c ∈ produced, c.stop ≠ base ∧ base + n ≠ c.addr)
    (stepped : s.stepBy manager (.initMemmap base n) = some next) : ∃ blocks', WholeInv next blocks' (produced ++ [⟨base, n⟩]) := by
  obtain ⟨inv, coalesced, shared, counted, apart, positives⟩ := whole
  rw [step_by_init] at stepped
  by_cases positive : 0 < n
  · have reserved : ∀ p, Block.Holds ⟨base, n⟩ p → (s.pmm.page p).pgReserved = true := by
      cases pages : initPages s.pmm.page base n with
      | error fault => simp [System.step, defaultInitMemmap, positive, pages, Except.bind, Except.toOption] at stepped
      | ok page' => exact ((init_pages_spec s.pmm.page page' base n).mp pages).1
    have free := inv.represents.counted
    obtain ⟨pmm, front, back, same, split, after⟩ := init_inv s blocks base n inv positive reserved ⟨below, by omega⟩
    rw [stepped, Option.some.injEq] at same
    subst same
    have fresh : ∀ p, Block.Holds ⟨base, n⟩ p → ¬ Covers produced p := by
      intro p holds covered
      have taken := reserved p holds
      rcases (shared p).mp covered with inBlocks | inLive
      · simp [inv.represents.usable p inBlocks] at taken
      · simp [inv.liveUsable p inLive] at taken
    rw [split] at coalesced shared counted
    refine ⟨front ++ ⟨base, n⟩ :: back, after, coalesced_insert front back ⟨base, n⟩ positive coalesced fun c member => ?_, fun p => ?_, ?_, ?_, ?_⟩
    · have size := inv.represents.nonempty c (split ▸ member)
      exact part_touches produced ⟨base, n⟩ c positive size (fun p holds => (shared p).mpr (.inl ⟨c, member, holds⟩)) fresh untouched
    · have parts := shared p
      simp only [covers_append, covers_cons, covers_nil, or_false] at parts ⊢
      tauto
    · simp only [total_append, total_cons, total_nil] at counted ⊢
      omega
    · refine List.pairwise_append.mpr ⟨apart, List.pairwise_singleton _ _, fun c member d here p both => ?_⟩
      rw [List.mem_singleton.mp here] at both
      exact fresh p both.2 ⟨c, member, both.1⟩
    · intro c member
      rcases List.mem_append.mp member with old | new
      · exact positives c old
      · exact List.mem_singleton.mp new ▸ positive
  · simp [System.step, defaultInitMemmap, positive, Except.toOption] at stepped

theorem whole_alloc (manager : Manager) (s : System) (blocks produced : List Block) (n : Nat) (whole : WholeInv s blocks produced)
    (small : total produced + 1 < 2 ^ 32) (positive : 0 < n) :
    ∃ next, s.stepBy manager (.allocPages n) = some next ∧ ∃ blocks', WholeInv next blocks' produced := by
  obtain ⟨inv, coalesced, shared, counted, apart, positives⟩ := whole
  have free := inv.represents.counted
  rcases alloc_pages_by manager s.pmm n blocks inv.represents positive (by omega) with
    ⟨pmm, result, after, frame⟩ | ⟨pmm, below, b, above, rfl, fits, result, after, frame⟩
  · exact ⟨_, by simp [System.stepBy, result, Except.toOption], blocks,
      refuse_inv s pmm blocks inv after frame, coalesced, shared, counted, apart, positives⟩
  · have ascending := inv.represents.ascending
    have nonempty := inv.represents.nonempty
    obtain ⟨_, _, totals, covers, _⟩ := remainder_spec n below above b ascending nonempty fits
    refine ⟨_, by simp [System.stepBy, result, Except.toOption], below ++ remainder n b above,
      take_inv s pmm n below above b inv positive fits after frame, coalesced_remainder n below above b ascending nonempty coalesced positive,
      fun p => ?_, ?_, apart, positives⟩
    · have parts := covers p
      have all := shared p
      simp only [covers_cons]
      tauto
    · simp only [total_cons]
      omega

theorem whole_free (manager : Manager) (s : System) (blocks produced : List Block) (base : PageId) (n : Nat) (whole : WholeInv s blocks produced)
    (held : ⟨base, n⟩ ∈ s.live) (below : NotLast s (.freePages base n)) :
    ∃ next, s.stepBy manager (.freePages base n) = some next ∧ ∃ blocks', WholeInv next blocks' produced := by
  obtain ⟨inv, coalesced, shared, counted, apart, positives⟩ := whole
  obtain ⟨pmm, front, back, stepped, rfl, ascending, nonempty, after⟩ := free_inv s blocks base n inv held below
  have shape := List.perm_cons_erase held
  have liveTotal : total s.live = n + total (s.live.erase ⟨base, n⟩) := by
    rw [total, (shape.map Block.size).sum_eq]
    simp [total]
  have liveCovers : ∀ p, Covers s.live p ↔ Block.Holds ⟨base, n⟩ p ∨ Covers (s.live.erase ⟨base, n⟩) p := by
    intro p
    rw [← covers_cons]
    exact exists_congr fun b => and_congr_left fun _ => shape.mem_iff
  obtain ⟨_, _, totals, covers⟩ := join_between_spec front back ⟨base, n⟩ ascending nonempty
  refine ⟨_, (step_by_free manager s base n).trans stepped, joinBetween front ⟨base, n⟩ back, after,
    coalesced_join_between front back ⟨base, n⟩ ascending nonempty coalesced, fun p => ?_, ?_, apart, positives⟩
  · have all := shared p
    rw [liveCovers p] at all
    rw [covers p]
    simp only [covers_append, covers_cons] at all ⊢
    tauto
  · rw [totals]
    simp only [total_append, total_cons] at counted ⊢
    omega

theorem whole_run (manager : Manager) (calls : List Call) (s final : System) (blocks past : List Block) (whole : WholeInv s blocks past)
    (apart : Coalesced (past ++ ranges calls)) (small : total (past ++ ranges calls) + 1 < 2 ^ 32)
    (notLast : Throughout (System.stepBy manager) NotLast s calls) (ran : run (System.stepBy manager) s calls = some final) :
    ∃ blocks', WholeInv final blocks' (past ++ ranges calls) := by
  induction calls generalizing s blocks past with
  | nil =>
      obtain rfl := Option.some.inj ran
      exact ⟨blocks, by simpa [ranges] using whole⟩
  | cons call calls ih =>
      cases stepped : s.stepBy manager call with
      | none => simp [run, stepped] at ran
      | some next =>
          simp only [run, stepped, Option.bind_some] at ran
          have later := notLast.2 next stepped
          cases call with
          | initMemmap base n =>
              have flat : past ++ ranges (.initMemmap base n :: calls) = (past ++ [⟨base, n⟩]) ++ ranges calls := by simp [ranges]
              rw [flat] at apart small ⊢
              have room : total past + n < 2 ^ 32 := by
                simp only [total_append, total_cons, total_nil] at small
                omega
              obtain ⟨blocks', after⟩ := whole_init manager s next blocks past base n whole notLast.1 room
                (fun c member => ⟨apart c (by simp [member]) ⟨base, n⟩ (by simp), apart ⟨base, n⟩ (by simp) c (by simp [member])⟩) stepped
              exact ih next blocks' (past ++ [⟨base, n⟩]) after apart small later ran
          | allocPages n =>
              replace apart : Coalesced (past ++ ranges calls) := apart
              replace small : total (past ++ ranges calls) + 1 < 2 ^ 32 := small
              have positive : 0 < n := by
                by_contra zero
                cases manager <;>
                  simp [System.stepBy, Manager.allocPages, defaultAllocPages, bestFitAllocPages, zero, Except.toOption] at stepped
              obtain ⟨other, same, blocks', after⟩ := whole_alloc manager s blocks past n whole (by rw [total_append] at small; omega) positive
              obtain rfl := Option.some.inj (stepped.symm.trans same)
              exact ih next blocks' past after apart small later ran
          | freePages base n =>
              replace apart : Coalesced (past ++ ranges calls) := apart
              replace small : total (past ++ ranges calls) + 1 < 2 ^ 32 := small
              have held : ⟨base, n⟩ ∈ s.live := by
                by_contra missing
                simp [System.stepBy, missing] at stepped
              obtain ⟨other, same, blocks', after⟩ := whole_free manager s blocks past base n whole held notLast.1
              obtain rfl := Option.some.inj (stepped.symm.trans same)
              exact ih next blocks' past after apart small later ran

-- What the free list is in a state that calls have led to: blocks that do not
-- touch and, with nothing held, the ones that init_memmap was given.
structure Maximal (manager : Manager) (s : System) (produced blocks : List Block) : Prop where
  represents : Represents s.pmm blocks
  whole : Coalesced blocks
  restored : s.live = [] → blocks.Perm produced
  allocReturns : ∀ n, 0 < n → ∃ next, s.stepBy manager (.allocPages n) = some next
  freeReturns : ∀ b ∈ s.live, NotLast s (.freePages b.addr b.size) → ∃ next, s.stepBy manager (.freePages b.addr b.size) = some next

theorem coalescing_maximal (manager : Manager) (page : PageId → Page) (links : Links ListNode) (reserved : ∀ p, (page p).pgReserved = true)
    (calls : List Call) (s : System) (apart : Coalesced (ranges calls)) (small : total (ranges calls) + 1 < 2 ^ 32)
    (notLast : Throughout (System.stepBy manager) NotLast (System.boot page links) calls)
    (ran : run (System.stepBy manager) (System.boot page links) calls = some s) : ∃ blocks, Maximal manager s (ranges calls) blocks := by
  obtain ⟨blocks, whole⟩ := whole_run manager calls (System.boot page links) s [] [] (boot_whole page links reserved) apart small notLast ran
  simp only [List.nil_append] at whole
  refine ⟨blocks, whole.inv.represents, whole.whole, fun nothing => ?_, fun n positive => ?_, fun b held below => ?_⟩
  · refine coalesced_unique blocks (ranges calls) whole.inv.represents.nonempty whole.positive
      (ascending_pairwise_apart blocks whole.inv.represents.ascending) whole.apart whole.whole apart fun p => ?_
    rw [whole.shared p, nothing]
    simp [covers_nil]
  · obtain ⟨next, stepped, _⟩ := whole_alloc manager s blocks (ranges calls) n whole small positive
    exact ⟨next, stepped⟩
  · obtain ⟨next, stepped, _⟩ := whole_free manager s blocks (ranges calls) b.addr b.size whole held below
    exact ⟨next, stepped⟩

-- The upper block comes back before the lower one.
def downward : List Call := [.initMemmap 0 6, .allocPages 2, .allocPages 2, .freePages 2 2, .freePages 0 2]

theorem coalescing_maximal_six : ∃ s, run (System.stepBy .bestFitPmm) (System.boot reservedPage looseLinks) downward = some s ∧
    s.live = [] ∧ ∃ blocks, Represents s.pmm blocks ∧ blocks.Perm [⟨0, 6⟩] := by
  have trace : (run (System.stepBy .bestFitPmm) (System.boot reservedPage looseLinks) downward).map System.live = some [] := by decide +kernel
  obtain ⟨s, ran, nothing⟩ := Option.map_eq_some_iff.mp trace
  have apart : Coalesced (ranges downward) := by
    simp only [downward, ranges, Coalesced, List.mem_singleton, forall_eq, Block.stop]
    decide
  obtain ⟨blocks, maximal⟩ := coalescing_maximal .bestFitPmm reservedPage looseLinks (fun _ => rfl) downward s apart (by decide)
    (by decide +kernel) ran
  exact ⟨s, ran, nothing, blocks, maximal.represents, maximal.restored nothing⟩

-- Pages 2 and 3 come back while page 0 is the whole list: the list has two blocks
-- that touch, and nothing is held.
def upward : List Call := [.initMemmap 0 4, .allocPages 2, .allocPages 2, .freePages 0 2, .freePages 2 2]

theorem upward_not_restored (manager : Manager) (s : System) (live : s.live = []) (size : (s.pmm.page 0).property = 2) :
    ¬ ∃ blocks, Maximal manager s (ranges upward) blocks := by
  rintro ⟨blocks, maximal⟩
  have same : blocks = [⟨0, 4⟩] := List.perm_singleton.mp (maximal.restored live)
  have sized := maximal.represents.sized ⟨0, 4⟩ (by simp [same])
  rw [size] at sized
  cases sized

def Missed (manager : Manager) : Prop :=
  ∃ s, run (System.stepBy manager) (System.boot reservedPage looseLinks) upward = some s ∧ s.live = [] ∧
    (s.pmm.links.next .freeList = .pageLink 0 ∧ s.pmm.links.next (.pageLink 0) = .pageLink 2 ∧ s.pmm.links.next (.pageLink 2) = .freeList) ∧
    (s.pmm.page 0).property = 2 ∧ ¬ ∃ blocks, Maximal manager s (ranges upward) blocks

theorem upward_missed (manager : Manager) : Missed manager := by
  have trace : (run (System.stepBy manager) (System.boot reservedPage looseLinks) upward).map
      (fun s => (s.live, s.pmm.links.next .freeList, s.pmm.links.next (.pageLink 0), s.pmm.links.next (.pageLink 2), (s.pmm.page 0).property)) =
      some ([], .pageLink 0, .pageLink 2, .freeList, 2) := by
    cases manager with
    | defaultPmm => decide +kernel
    | bestFitPmm => decide +kernel
  obtain ⟨s, ran, facts⟩ := Option.map_eq_some_iff.mp trace
  simp only [Prod.mk.injEq] at facts
  obtain ⟨live, first, second, third, size⟩ := facts
  exact ⟨s, ran, live, ⟨first, second, third⟩, size, upward_not_restored manager s live size⟩

theorem coalescing_missed : Missed .defaultPmm ∧ Missed .bestFitPmm :=
  ⟨upward_missed .defaultPmm, upward_missed .bestFitPmm⟩

end Ucore.Pmm
