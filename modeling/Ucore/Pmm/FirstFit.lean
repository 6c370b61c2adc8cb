import Ucore.Lib.Blocks
import Ucore.Pmm.DefaultPmm

set_option autoImplicit false

namespace Ucore.Pmm

open Ucore.Lib

def headNode (b : Block) : ListNode := .pageLink b.addr

-- The machine state stands for a list of free blocks.
structure Represents (s : PmmState) (blocks : List Block) : Prop where
  ring : Links.Ring s.links .freeList (blocks.map headNode)
  ascending : Ascending blocks
  nonempty : Nonempty blocks
  sized : ∀ b ∈ blocks, (s.page b.addr).property = b.size
  flagged : ∀ p, (s.page p).pgReserved = false → ((s.page p).pgProperty = true ↔ ∃ b ∈ blocks, b.addr = p)
  usable : ∀ p, Covers blocks p → (s.page p).pgReserved = false
  counted : s.nrFree = total blocks

theorem uint_small (n : Nat) (small : n < 2 ^ 32) : uint n = n := Nat.mod_eq_of_lt small

theorem gap_step (before after : List Block) (b : Block) (prev next : ListNode)
    (gap : Links.Gap ListNode.freeList (before.map headNode) ((b :: after).map headNode) prev next) :
    next = headNode b ∧
      ∃ following, Links.Gap ListNode.freeList ((before ++ [b]).map headNode) (after.map headNode) (headNode b) following := by
  obtain ⟨_, back, right⟩ := gap
  simp only [List.map_cons, List.cons_append, List.cons.injEq] at right
  obtain ⟨prev', next', ⟨front, left⟩, rear⟩ :=
    Links.gap_exists ListNode.freeList ((before ++ [b]).map headNode) (after.map headNode)
  have last : headNode b = prev' := by
    have same : (ListNode.freeList :: before.map headNode) ++ [headNode b] = front ++ [prev'] := by simpa using left
    exact List.singleton_inj.mp (List.append_inj' same rfl).2
  exact ⟨right.1.symm, next', ⟨⟨front, last ▸ left⟩, rear⟩⟩

theorem gap_end (before : List Block) (prev next : ListNode)
    (gap : Links.Gap ListNode.freeList (before.map headNode) ([].map headNode) prev next) : next = .freeList := by
  obtain ⟨_, back, right⟩ := gap
  simpa using (congrArg List.head? right).symm

theorem gap_start (after : List ListNode) (prev next : ListNode) (gap : Links.Gap ListNode.freeList [] after prev next) :
    prev = .freeList := by
  obtain ⟨⟨front, left⟩, _⟩ := gap
  exact (List.singleton_inj.mp (List.append_inj' (show [] ++ [ListNode.freeList] = front ++ [prev] from left) rfl).2).symm

theorem alloc_loop_spec (n : Nat) (s : PmmState) (before after : List Block) (prev next : ListNode) (fuel : Nat)
    (gap : Links.Gap ListNode.freeList (before.map headNode) (after.map headNode) prev next)
    (represents : Represents s (before ++ after)) (enough : after.length < fuel) :
    allocLoop n s prev fuel = .ok ((takeFirst n after).map Prod.fst) := by
  induction after generalizing before prev next fuel with
  | nil =>
      cases fuel with
      | zero => simp at enough
      | succ rest =>
          have atEnd := gap_end before prev next gap
          have onward := (Links.ring_gap s.links .freeList _ _ prev next gap (by simpa using represents.ring)).1
          simp [allocLoop, onward, atEnd, takeFirst]
  | cons b after ih =>
      cases fuel with
      | zero => simp at enough
      | succ rest =>
          have onward := (Links.ring_gap s.links .freeList _ _ prev next gap (by simpa using represents.ring)).1
          obtain ⟨here, following, nextGap⟩ := gap_step before after b prev next gap
          have size : (s.page b.addr).property = b.size := represents.sized b (by simp)
          by_cases fits : n ≤ b.size
          · simp [allocLoop, onward, here, headNode, size, takeFirst, fits]
          · have later := ih (before ++ [b]) (headNode b) following rest nextGap (by simpa using represents)
              (by simpa using enough)
            simp only [headNode] at later
            simp only [allocLoop, onward, here, headNode, size, if_neg fits, later, takeFirst]
            cases takeFirst n after with
            | none => rfl
            | some found => rfl

-- The search stops at the first block above base; there must be one.
theorem insert_loop_spec (base : PageId) (links : Links ListNode) (before after : List Block) (prev next : ListNode) (fuel : Nat)
    (gap : Links.Gap ListNode.freeList (before.map headNode) (after.map headNode) prev next)
    (ring : Links.Ring links .freeList ((before ++ after).map headNode)) (lower : ∀ b ∈ before, b.addr < base)
    (above : ∃ b ∈ after, base < b.addr) (fresh : ∀ b ∈ before ++ after, b.addr ≠ base) (enough : after.length < fuel) :
    ∃ links' below higher, insertLoop base links prev fuel = .ok links' ∧ before ++ after = below ++ higher ∧
      Links.Ring links' .freeList (below.map headNode ++ .pageLink base :: higher.map headNode) ∧
      (∀ b ∈ below, b.addr < base) ∧ ∃ b, higher.head? = some b ∧ base < b.addr := by
  induction after generalizing before prev next fuel with
  | nil => simp at above
  | cons b after ih =>
      cases fuel with
      | zero => simp at enough
      | succ rest =>
          have onward := (Links.ring_gap links .freeList _ _ prev next gap (by simpa using ring)).1
          have backward := (Links.ring_gap links .freeList _ _ prev next gap (by simpa using ring)).2
          obtain ⟨here, following, nextGap⟩ := gap_step before after b prev next gap
          subst here
          by_cases found : base < b.addr
          · refine ⟨listAddBefore links (headNode b) (.pageLink base), before, b :: after, ?_, rfl, ?_, lower, b, rfl, found⟩
            · simp [insertLoop, onward, headNode, found]
            · rw [listAddBefore, backward]
              refine Links.ring_link links .freeList (.pageLink base) _ _ prev (headNode b) gap (by simpa using ring) ?_
              intro member
              simp only [← List.map_append, List.mem_cons, List.mem_map, reduceCtorEq, false_or] at member
              obtain ⟨c, inList, same⟩ := member
              exact fresh c inList (ListNode.pageLink.inj same)
          · have aboveLater : ∃ c ∈ after, base < c.addr := by
              obtain ⟨c, inList, larger⟩ := above
              rcases List.mem_cons.mp inList with atB | later
              · subst c
                exact absurd larger found
              · exact ⟨c, later, larger⟩
            have notLast : links.next (headNode b) ≠ .freeList := by
              have onFollowing := (Links.ring_gap links .freeList _ _ _ _ nextGap (by simpa using ring)).1
              rw [onFollowing]
              obtain ⟨c, inList, _⟩ := aboveLater
              obtain ⟨d, tail, shape⟩ := List.exists_cons_of_ne_nil (List.ne_nil_of_mem inList)
              subst shape
              rw [(gap_step (before ++ [b]) tail d _ _ nextGap).1]
              simp [headNode]
            have lowerNext : ∀ c ∈ before ++ [b], c.addr < base := by
              intro c inList
              rcases List.mem_append.mp inList with earlier | atB
              · exact lower c earlier
              · have notBase := fresh b (by simp)
                rw [List.mem_singleton.mp atB]
                exact Nat.lt_of_le_of_ne (Nat.le_of_not_lt found) notBase
            obtain ⟨links', below, higher, result, split, newRing, lowers, highest⟩ :=
              ih (before ++ [b]) (headNode b) following rest nextGap (by simpa using ring) lowerNext aboveLater
                (by simpa using fresh) (by simpa using enough)
            refine ⟨links', below, higher, ?_, by simpa using split, newRing, lowers, highest⟩
            simp only [headNode] at onward notLast result
            simp only [insertLoop, onward, if_neg found, if_neg notLast, result]

theorem ascending_addr (b : Block) (rest : List Block) (ascending : Ascending (b :: rest)) :
    ∀ c ∈ b :: rest, b.addr ≤ c.addr := by
  intro c member
  rcases List.mem_cons.mp member with here | later
  · exact here ▸ Nat.le_refl c.addr
  · have bound := (List.pairwise_cons.mp ascending).1 c later
    simp only [Block.Before, Block.stop] at bound
    omega

theorem insert_block_spec (fuel : Nat) (base : PageId) (s : PmmState) (blocks : List Block) (represents : Represents s blocks)
    (place : blocks = [] ∨ ∃ b ∈ blocks, base < b.addr) (fresh : ∀ b ∈ blocks, b.addr ≠ base) (enough : blocks.length < fuel) :
    ∃ links' below higher, insertBlock fuel base s.links = .ok links' ∧ blocks = below ++ higher ∧
      Links.Ring links' .freeList (below.map headNode ++ .pageLink base :: higher.map headNode) ∧
      (∀ b ∈ below, b.addr < base) ∧ ∀ b ∈ higher, base < b.addr := by
  cases blocks with
  | nil =>
      obtain ⟨prev, next, gap⟩ := Links.gap_exists ListNode.freeList ([] : List ListNode) []
      have empty := (Links.ring_empty s.links .freeList).mp represents.ring
      refine ⟨listAdd s.links .freeList (.pageLink base), [], [], ?_, rfl, ?_, by simp, by simp⟩
      · simp [insertBlock, listEmpty, empty]
      · exact Links.ring_link s.links .freeList (.pageLink base) [] [] .freeList (s.links.next .freeList)
          ⟨⟨[], rfl⟩, [], by simp [empty]⟩ represents.ring (by simp)
  | cons b rest =>
      have above : ∃ c ∈ b :: rest, base < c.addr := place.resolve_left (by simp)
      obtain ⟨prev, next, gap⟩ := Links.gap_exists ListNode.freeList (([] : List Block).map headNode) ((b :: rest).map headNode)
      obtain rfl := gap_start _ prev next gap
      have onward := (Links.ring_gap s.links .freeList _ _ _ next gap represents.ring).1
      have listed : listEmpty s.links .freeList = false := by
        simp [listEmpty, onward, (gap_step [] rest b _ next gap).1, headNode]
      obtain ⟨links', below, higher, result, split, ring, lowers, h, first, highest⟩ :=
        insert_loop_spec base s.links [] (b :: rest) .freeList next fuel gap represents.ring (by simp) above fresh enough
      refine ⟨links', below, higher, by simpa [insertBlock, listed] using result, split, ring, lowers, ?_⟩
      cases higher with
      | nil => simp at first
      | cons c tail =>
          have same : c = h := by simpa using first
          have ascending : Ascending (c :: tail) :=
            represents.ascending.sublist (by rw [show b :: rest = below ++ c :: tail from split]; exact List.sublist_append_right _ _)
          intro d member
          have order := ascending_addr c tail ascending d member
          rw [← same] at highest
          exact Nat.lt_of_lt_of_le highest order

-- A block apart from all others keeps its place by address.
theorem ascending_insert (below above : List Block) (b : Block) (ascending : Ascending (below ++ above))
    (nonempty : Nonempty (below ++ above)) (positive : 0 < b.size) (apart : ∀ unit, b.Holds unit → ¬ Covers (below ++ above) unit)
    (lower : ∀ a ∈ below, a.addr < b.addr) (upper : ∀ c ∈ above, b.addr < c.addr) : Ascending (below ++ b :: above) := by
  simp only [Ascending, List.pairwise_append, List.pairwise_cons] at ascending ⊢
  obtain ⟨belowAsc, aboveAsc, cross⟩ := ascending
  have beforeB : ∀ a ∈ below, a.Before b := by
    intro a member
    by_contra overlap
    have under := lower a member
    simp only [Block.Before, Block.stop] at overlap
    refine apart b.addr (by simp only [Block.Holds, Block.stop]; omega) ⟨a, by simp [member], ?_⟩
    simp only [Block.Holds, Block.stop]
    omega
  have afterB : ∀ c ∈ above, b.Before c := by
    intro c member
    by_contra overlap
    have exceeds := upper c member
    have size := nonempty c (by simp [member])
    simp only [Block.Before, Block.stop] at overlap
    refine apart c.addr (by simp only [Block.Holds, Block.stop]; omega) ⟨c, by simp [member], ?_⟩
    simp only [Block.Holds, Block.stop]
    omega
  refine ⟨belowAsc, ⟨afterB, aboveAsc⟩, fun a inBelow c inAbove => ?_⟩
  rcases List.mem_cons.mp inAbove with here | later
  · exact here ▸ beforeB a inBelow
  · exact cross a inBelow c later

theorem link_block_spec (fuel : Nat) (base : PageId) (n : Nat) (s : PmmState) (blocks : List Block)
    (represents : Represents s blocks) (positive : 0 < n)
    (usable : ∀ p, Block.Holds ⟨base, n⟩ p → (s.page p).pgReserved = false)
    (apart : ∀ p, Block.Holds ⟨base, n⟩ p → ¬ Covers blocks p) (place : blocks = [] ∨ ∃ b ∈ blocks, base < b.addr)
    (small : s.nrFree + n < 2 ^ 32) (enough : blocks.length < fuel) :
    ∃ s' below above, linkBlock fuel base n s = .ok s' ∧ blocks = below ++ above ∧
      Represents s' (below ++ ⟨base, n⟩ :: above) ∧ ∀ p, (s'.page p).pgReserved = (s.page p).pgReserved := by
  have baseIn : Block.Holds ⟨base, n⟩ base := by
    simp only [Block.Holds, Block.stop]
    omega
  have fresh : ∀ b ∈ blocks, b.addr ≠ base := by
    intro b member same
    have size := represents.nonempty b member
    refine apart base baseIn ⟨b, member, ?_⟩
    simp only [Block.Holds, Block.stop]
    omega
  obtain ⟨links', below, above, result, split, ring, lower, upper⟩ :=
    insert_block_spec fuel base s blocks represents place fresh enough
  subst split
  refine ⟨_, below, above, by simp only [linkBlock, result]; rfl, rfl, ?_, ?_⟩
  · constructor
    · simpa [headNode] using ring
    · exact ascending_insert below above ⟨base, n⟩ represents.ascending represents.nonempty positive apart lower upper
    · intro b member
      simp only [List.mem_append, List.mem_cons] at member
      rcases member with inBelow | here | inAbove
      · exact represents.nonempty b (by simp [inBelow])
      · simpa [here] using positive
      · exact represents.nonempty b (by simp [inAbove])
    · intro b member
      by_cases atBase : b.addr = base
      · have here : b = ⟨base, n⟩ := by
          simp only [List.mem_append, List.mem_cons] at member
          rcases member with inBelow | here | inAbove
          · exact absurd atBase (fresh b (by simp [inBelow]))
          · exact here
          · exact absurd atBase (fresh b (by simp [inAbove]))
        have bounded : n < 2 ^ 32 := by omega
        simp [here, PmmState.setPage, uint_small n bounded]
      · simp only [List.mem_append, List.mem_cons] at member
        have inList : b ∈ below ++ above := by
          rcases member with inBelow | here | inAbove
          · simp [inBelow]
          · exact absurd (by rw [here]) atBase
          · simp [inAbove]
        simpa [PmmState.setPage, Function.update_of_ne atBase] using represents.sized b inList
    · intro p unreserved
      by_cases atBase : p = base
      · subst atBase
        have listed : ∃ b ∈ below ++ ⟨p, n⟩ :: above, b.addr = p := ⟨⟨p, n⟩, by simp, rfl⟩
        simpa [PmmState.setPage] using listed
      · simp only [PmmState.setPage, Function.update_of_ne atBase] at unreserved ⊢
        rw [represents.flagged p unreserved]
        have notBase : base ≠ p := fun same => atBase same.symm
        simp [notBase, or_and_right, exists_or]
    · intro p covered
      have before : Covers (below ++ above) p ∨ Block.Holds ⟨base, n⟩ p := by
        simp only [covers_append, covers_cons] at covered ⊢
        tauto
      have unreserved : (s.page p).pgReserved = false := by
        rcases before with old | inNew
        · exact represents.usable p old
        · exact usable p inNew
      by_cases atBase : p = base
      · simpa [PmmState.setPage, atBase] using atBase ▸ unreserved
      · simpa [PmmState.setPage, Function.update_of_ne atBase] using unreserved
    · have sum := represents.counted
      simp only [total_append, total_cons] at sum ⊢
      rw [uint_small _ small]
      omega
  · intro p
    by_cases atBase : p = base
    · simp [PmmState.setPage, atBase]
    · simp [PmmState.setPage, Function.update_of_ne atBase]

theorem head_covers (below above : List Block) (b : Block) (ascending : Ascending (below ++ b :: above))
    (nonempty : Nonempty (below ++ b :: above)) (unit : Nat) (holds : b.Holds unit) : ∀ c ∈ below ++ above, c.addr ≠ unit := by
  intro c member same
  have positive := nonempty c (by simp only [List.mem_append, List.mem_cons] at member ⊢; tauto)
  refine ascending_apart below above b ascending unit holds ⟨c, member, ?_⟩
  simp only [Block.Holds, Block.stop]
  omega

-- The pages that the split of a block writes.
theorem split_block_page (s : PmmState) (n : Nat) (b : Block) (size : (s.page b.addr).property = b.size) (positive : 0 < n)
    (bound : b.size < 2 ^ 32) (p : PageId) : (splitBlock s b.addr n).page p =
      if p = b.addr then { s.page p with pgProperty := false }
      else if n < b.size ∧ p = b.addr + n then { s.page p with property := b.size - n, pgProperty := true } else s.page p := by
  have apart : b.addr ≠ b.addr + n := by omega
  have sizeSmall : uint (b.size - n) = b.size - n := uint_small _ (by omega)
  by_cases fits : n < b.size
  · by_cases atHead : p = b.addr
    · simp [splitBlock, size, fits, PmmState.setPage, atHead, Function.update_of_ne apart]
    · by_cases atRest : p = b.addr + n
      · simp [splitBlock, size, fits, PmmState.setPage, atRest, Nat.ne_of_gt positive, sizeSmall]
      · simp [splitBlock, size, fits, PmmState.setPage, atHead, atRest]
  · by_cases atHead : p = b.addr
    · simp [splitBlock, size, fits, PmmState.setPage, atHead]
    · simp [splitBlock, size, fits, PmmState.setPage, atHead]

theorem split_block_spec (s : PmmState) (n : Nat) (below above : List Block) (b : Block)
    (represents : Represents s (below ++ b :: above)) (positive : 0 < n) (enough : n ≤ b.size) (small : s.nrFree < 2 ^ 32) :
    Represents (splitBlock s b.addr n) (below ++ remainder n b above) ∧
      ∀ p, ((splitBlock s b.addr n).page p).pgReserved = (s.page p).pgReserved := by
  obtain ⟨prev, next, gap⟩ := Links.gap_exists ListNode.freeList (below.map headNode) (above.map headNode)
  have ringList : Links.Ring s.links .freeList (below.map headNode ++ headNode b :: above.map headNode) := by
    simpa using represents.ring
  obtain ⟨_, atPrev, atNext, _⟩ := Links.ring_node s.links .freeList (headNode b) _ _ prev next gap ringList
  have unlinked := Links.ring_unlink s.links .freeList (headNode b) _ _ prev next gap ringList
  have size : (s.page b.addr).property = b.size := represents.sized b (by simp)
  have sum := represents.counted
  obtain ⟨ascending, nonempty, totals, covers, _⟩ :=
    remainder_spec n below above b represents.ascending represents.nonempty enough
  have others := head_covers below above b represents.ascending represents.nonempty
  have inside : ∀ k, k < b.size → b.Holds (b.addr + k) := fun k bound => by
    simp only [Block.Holds, Block.stop]
    omega
  simp only [headNode] at atPrev atNext
  have sizeBound : b.size ≤ s.nrFree := by
    rw [sum]
    exact size_le_total _ b (by simp)
  have count : uint (2 ^ 32 + s.nrFree - uint n) = s.nrFree - n := by
    rw [uint_small n (by omega)]
    simp only [uint]
    omega
  have page := split_block_page s n b size positive (by omega)
  have reserved : ∀ p, ((splitBlock s b.addr n).page p).pgReserved = (s.page p).pgReserved := by
    intro p
    rw [page p]
    split
    · rfl
    · split <;> rfl
  refine ⟨⟨?_, ascending, nonempty, ?_, ?_, ?_, ?_⟩, reserved⟩
  · by_cases fits : n < b.size
    · have relinked := Links.ring_link _ .freeList (.pageLink (b.addr + n)) _ _ prev next gap unlinked (by
        intro member
        simp only [← List.map_append, List.mem_cons, List.mem_map, reduceCtorEq, false_or] at member
        obtain ⟨c, inList, same⟩ := member
        exact others _ (inside n fits) c inList (ListNode.pageLink.inj same))
      have onward := (Links.ring_gap _ .freeList _ _ prev next gap unlinked).1
      simpa [splitBlock, size, fits, remainder, listDel, listAdd, atPrev, atNext, onward, PmmState.setPage, headNode] using relinked
    · simpa [splitBlock, size, fits, remainder, listDel, atPrev, atNext, PmmState.setPage] using unlinked
  · intro c member
    have listed : (n < b.size ∧ c = ⟨b.addr + n, b.size - n⟩) ∨ c ∈ below ++ above := by
      simp only [remainder] at member
      split at member
      · simp only [List.mem_append, List.mem_cons] at member ⊢
        tauto
      · exact Or.inr member
    rcases listed with ⟨fits, atRest⟩ | old
    · have notHead : b.addr + n ≠ b.addr := by omega
      rw [atRest, page (b.addr + n), if_neg notHead, if_pos ⟨fits, rfl⟩]
    · have notHead := others _ (inside 0 (by omega)) c old
      have sized := represents.sized c (by simp only [List.mem_append, List.mem_cons] at old ⊢; tauto)
      rw [page c.addr, if_neg (by simpa using notHead), if_neg (fun atRest => others _ (inside n atRest.1) c old atRest.2)]
      exact sized
  · intro p unreserved
    have before := represents.flagged p (by rwa [reserved p] at unreserved)
    rw [page p]
    by_cases atHead : p = b.addr
    · have none : ¬ ∃ c ∈ below ++ remainder n b above, c.addr = p := by
        rintro ⟨c, member, same⟩
        simp only [remainder] at member
        split at member
        · simp only [List.mem_append, List.mem_cons] at member
          have split : c = ⟨b.addr + n, b.size - n⟩ ∨ c ∈ below ++ above := by
            simp only [List.mem_append]
            tauto
          rcases split with atRest | old
          · have shifted : b.addr + n = b.addr := by simpa [atRest, atHead] using same
            omega
          · exact others _ (inside 0 (by omega)) c old (by simpa [atHead] using same)
        · exact others _ (inside 0 (by omega)) c member (by simpa [atHead] using same)
      simp [atHead] at none ⊢
      exact none
    · by_cases atRest : n < b.size ∧ p = b.addr + n
      · rw [if_neg atHead, if_pos atRest]
        simp only [true_iff]
        exact ⟨⟨b.addr + n, b.size - n⟩, by simp [remainder, atRest.1], atRest.2.symm⟩
      · rw [if_neg atHead, if_neg atRest, before]
        have notB : b.addr ≠ p := fun same => atHead same.symm
        by_cases fits : n < b.size
        · have notRest : b.addr + n ≠ p := fun same => atRest ⟨fits, same.symm⟩
          simp [remainder, fits, notB, notRest, or_and_right, exists_or]
        · simp [remainder, fits, notB, or_and_right, exists_or]
  · intro p covered
    rw [reserved p]
    exact represents.usable p ((covers p).mpr (Or.inl covered))
  · have counter : (splitBlock s b.addr n).nrFree = uint (2 ^ 32 + s.nrFree - uint n) := by
      simp [splitBlock]
    rw [counter, count]
    omega

theorem absorb_spec (s : PmmState) (below above : List Block) (a b : Block) (meet : a.stop = b.addr)
    (represents : Represents s (below ++ a :: b :: above)) (small : s.nrFree < 2 ^ 32) :
    Represents (absorb s a.addr b.addr) (below ++ ⟨a.addr, a.size + b.size⟩ :: above) ∧
      ∀ p, ((absorb s a.addr b.addr).page p).pgReserved = (s.page p).pgReserved := by
  have sum := represents.counted
  have sizeA : (s.page a.addr).property = a.size := represents.sized a (by simp)
  have sizeB : (s.page b.addr).property = b.size := represents.sized b (by simp)
  have positiveA := represents.nonempty a (by simp)
  have positiveB := represents.nonempty b (by simp)
  have apart : a.addr ≠ b.addr := by
    simp only [Block.stop] at meet
    omega
  have sizeSmall : uint (a.size + b.size) = a.size + b.size := by
    apply uint_small
    simp only [total_append, total_cons] at sum
    omega
  have flat : below ++ a :: b :: above = (below ++ [a]) ++ b :: above := by simp
  have othersB := head_covers (below ++ [a]) above b (flat ▸ represents.ascending) (flat ▸ represents.nonempty) b.addr
    (by simp only [Block.Holds, Block.stop]; omega)
  have othersA := head_covers below (b :: above) a represents.ascending represents.nonempty a.addr
    (by simp only [Block.Holds, Block.stop]; omega)
  have page : ∀ p, (absorb s a.addr b.addr).page p =
      if p = b.addr then { s.page p with pgProperty := false }
      else if p = a.addr then { s.page p with property := a.size + b.size } else s.page p := by
    intro p
    by_cases atB : p = b.addr
    · simp [absorb, PmmState.setPage, atB, Function.update_of_ne apart.symm]
    · by_cases atA : p = a.addr
      · simp [absorb, PmmState.setPage, atA, apart, sizeA, sizeB, sizeSmall]
      · simp [absorb, PmmState.setPage, atA, atB]
  have reserved : ∀ p, ((absorb s a.addr b.addr).page p).pgReserved = (s.page p).pgReserved := by
    intro p
    rw [page p]
    split
    · rfl
    · split <;> rfl
  refine ⟨⟨?_, merged_ascending below above a b meet represents.ascending, ?_, ?_, ?_, ?_, ?_⟩, reserved⟩
  · obtain ⟨prev, next, gap⟩ := Links.gap_exists ListNode.freeList ((below ++ [a]).map headNode) (above.map headNode)
    have ringList : Links.Ring s.links .freeList ((below ++ [a]).map headNode ++ headNode b :: above.map headNode) := by
      simpa using represents.ring
    obtain ⟨_, atPrev, atNext, _⟩ := Links.ring_node s.links .freeList (headNode b) _ _ prev next gap ringList
    have unlinked := Links.ring_unlink s.links .freeList (headNode b) _ _ prev next gap ringList
    simp only [headNode] at atPrev atNext
    simpa [absorb, listDel, atPrev, atNext, headNode] using unlinked
  · intro c member
    simp only [List.mem_append, List.mem_cons] at member
    rcases member with inBelow | here | inAbove
    · exact represents.nonempty c (by simp [inBelow])
    · simp only [here]
      omega
    · exact represents.nonempty c (by simp [inAbove])
  · intro c member
    simp only [List.mem_append, List.mem_cons] at member
    rcases member with inBelow | here | inAbove
    · rw [page c.addr, if_neg (othersB c (by simp [inBelow])), if_neg (othersA c (by simp [inBelow]))]
      exact represents.sized c (by simp [inBelow])
    · rw [here, page a.addr, if_neg apart, if_pos rfl]
    · rw [page c.addr, if_neg (othersB c (by simp [inAbove])), if_neg (othersA c (by simp [inAbove]))]
      exact represents.sized c (by simp [inAbove])
  · intro p unreserved
    have before := represents.flagged p (by rwa [reserved p] at unreserved)
    rw [page p]
    by_cases atB : p = b.addr
    · have none : ¬ ∃ c ∈ below ++ ⟨a.addr, a.size + b.size⟩ :: above, c.addr = p := by
        rintro ⟨c, member, same⟩
        simp only [List.mem_append, List.mem_cons] at member
        rcases member with inBelow | here | inAbove
        · exact othersB c (by simp [inBelow]) (same.trans atB)
        · rw [here] at same
          exact apart (same.trans atB)
        · exact othersB c (by simp [inAbove]) (same.trans atB)
      rw [if_pos atB]
      simpa using none
    · have notB : b.addr ≠ p := fun same => atB same.symm
      rw [if_neg atB]
      by_cases atA : p = a.addr
      · rw [if_pos atA]
        simp only [before]
        exact ⟨fun _ => ⟨⟨a.addr, a.size + b.size⟩, by simp, atA.symm⟩, fun _ => ⟨a, by simp, atA.symm⟩⟩
      · rw [if_neg atA, before]
        simp [notB, or_and_right, exists_or]
  · intro p covered
    rw [reserved p]
    refine represents.usable p ?_
    simp only [covers_append, covers_cons, merged_holds a b meet] at covered ⊢
    tauto
  · simp only [total_append, total_cons] at sum ⊢
    simp only [absorb, PmmState.setPage]
    omega

theorem merge_after_spec (s : PmmState) (below above : List Block) (b : Block) (represents : Represents s (below ++ b :: above))
    (small : s.nrFree < 2 ^ 32) : Represents (mergeAfter s b.addr) (below ++ joinAfter b above) ∧
      ∀ p, ((mergeAfter s b.addr).page p).pgReserved = (s.page p).pgReserved := by
  obtain ⟨prev, next, gap⟩ := Links.gap_exists ListNode.freeList (below.map headNode) (above.map headNode)
  obtain ⟨_, _, atNext, _⟩ := Links.ring_node s.links .freeList (headNode b) _ _ prev next gap (by simpa using represents.ring)
  have size : (s.page b.addr).property = b.size := represents.sized b (by simp)
  simp only [headNode] at atNext
  cases above with
  | nil =>
      have atEnd : next = .freeList := gap_end below prev next gap
      have unchanged : mergeAfter s b.addr = s := by simp [mergeAfter, atNext, atEnd]
      rw [unchanged]
      exact ⟨represents, fun _ => rfl⟩
  | cons c rest =>
      have atC : next = .pageLink c.addr := (gap_step below rest c prev next gap).1
      by_cases meet : b.stop = c.addr
      · have joined : mergeAfter s b.addr = absorb s b.addr c.addr := by
          simp only [mergeAfter, atNext, atC, size]
          exact if_pos meet
        rw [joined, joinAfter, if_pos meet]
        exact absorb_spec s below rest b c meet represents small
      · have unchanged : mergeAfter s b.addr = s := by
          simp only [mergeAfter, atNext, atC, size]
          exact if_neg meet
        rw [unchanged, joinAfter, if_neg meet]
        exact ⟨represents, fun _ => rfl⟩

-- Both merges of free_pages, after base has been linked in.
theorem merge_spec (s : PmmState) (below above : List Block) (b : Block) (represents : Represents s (below ++ b :: above))
    (small : s.nrFree < 2 ^ 32) :
    Represents (mergeAfter (mergeBefore s b.addr).2 (mergeBefore s b.addr).1) (joinBetween below b above) ∧
      ∀ p, ((mergeAfter (mergeBefore s b.addr).2 (mergeBefore s b.addr).1).page p).pgReserved = (s.page p).pgReserved := by
  obtain ⟨prev, next, gap⟩ := Links.gap_exists ListNode.freeList (below.map headNode) (above.map headNode)
  obtain ⟨_, atPrev, _, _⟩ := Links.ring_node s.links .freeList (headNode b) _ _ prev next gap (by simpa using represents.ring)
  simp only [headNode] at atPrev
  cases below using List.reverseRecOn with
  | nil =>
      have atHead := gap_start _ prev next gap
      have unchanged : mergeBefore s b.addr = (b.addr, s) := by simp [mergeBefore, atPrev, atHead]
      rw [unchanged]
      exact merge_after_spec s [] above b represents small
  | append_singleton front a _ =>
      have atA : prev = .pageLink a.addr := by
        obtain ⟨⟨before, left⟩, _⟩ := gap
        have same : (ListNode.freeList :: front.map headNode) ++ [headNode a] = before ++ [prev] := by simpa using left
        exact (List.singleton_inj.mp (List.append_inj' same rfl).2).symm
      have size : (s.page a.addr).property = a.size := represents.sized a (by simp)
      simp only [joinBetween, List.getLast?_concat, List.dropLast_concat]
      by_cases meet : a.stop = b.addr
      · have joined : mergeBefore s b.addr = (a.addr, absorb s a.addr b.addr) := by
          simp only [mergeBefore, atPrev, atA, size]
          exact if_pos meet
        obtain ⟨absorbed, frame⟩ := absorb_spec s front above a b meet (by simpa using represents) small
        obtain ⟨merged, after⟩ := merge_after_spec _ front above ⟨a.addr, a.size + b.size⟩ absorbed
          (by simpa [absorb, PmmState.setPage] using small)
        rw [joined, if_pos meet]
        exact ⟨merged, fun p => (after p).trans (frame p)⟩
      · have unchanged : mergeBefore s b.addr = (b.addr, s) := by
          simp only [mergeBefore, atPrev, atA, size]
          exact if_neg meet
        rw [unchanged, if_neg meet]
        exact merge_after_spec s (front ++ [a]) above b represents small

end Ucore.Pmm
