import Ucore.Pmm.BuddySafe

set_option autoImplicit false

namespace Ucore.Pmm.Buddy

open Ucore.Lib

-- The other half of the block that the block of this order at p was split from,
-- for the blocks that buddy_init_memmap cuts; those have none.
def otherHalf (cut : List Block) (p order : Nat) : Option Nat :=
  (cut.find? fun root => root.addr ≤ p ∧ p < root.stop).bind fun root =>
    if 2 ^ (order + 1) ≤ root.size then some (root.addr + ((p - root.addr) ^^^ 2 ^ order)) else none

structure Cut (cut : List Block) (base n : Nat) : Prop where
  tiles : Tiles cut base n
  powers : ∀ root ∈ cut, ∃ order, order < maxOrder ∧ root.size = 2 ^ order

-- Every block is a part of one that buddy_init_memmap cut, and no two halves of
-- such a part are on the free lists.
structure TreeInv (cut : List Block) (freeList : Nat → List Nat) (taken : List Block) : Prop where
  nodes : ∀ b ∈ taken ++ freeBlocks freeList, ∃ root ∈ cut, Node root b
  noPair : ∀ root ∈ cut, ∀ low order, order < maxOrder → Node root ⟨low, 2 ^ (order + 1)⟩ →
    ¬ (low ∈ freeList order ∧ low + 2 ^ order ∈ freeList order)

section Halves

variable {cut : List Block} {base n : Nat}

theorem find_root (whole : Cut cut base n) (root : Block) (member : root ∈ cut) (p : Nat) (holds : root.Holds p) :
    (cut.find? fun root => root.addr ≤ p ∧ p < root.stop) = some root := by
  cases found : cut.find? fun root => root.addr ≤ p ∧ p < root.stop with
  | none =>
      have missed := List.find?_eq_none.mp found root member
      simp only [Block.Holds] at holds
      simp [holds] at missed
  | some other =>
      have inside := List.find?_some found
      simp only [decide_eq_true_eq] at inside
      exact congrArg some (tiles_same whole.tiles other root (List.mem_of_find?_eq_some found) member p inside holds)

theorem node_holds (root : Block) (p order : Nat) (node : Node root ⟨p, 2 ^ order⟩) : root.Holds p := by
  have above := node.above
  have inside := node.inside
  have positive := Nat.two_pow_pos order
  simp only [Block.Holds, Block.stop] at above inside ⊢
  omega

-- The two halves of a part name each other.
theorem other_half_pair (whole : Cut cut base n) (root : Block) (member : root ∈ cut) (low order : Nat) (node : Node root ⟨low, 2 ^ (order + 1)⟩) :
    otherHalf cut low order = some (low + 2 ^ order) ∧ otherHalf cut (low + 2 ^ order) order = some low := by
  have positive := Nat.two_pow_pos order
  have double := two_pow_halves order
  obtain ⟨above, ⟨steps, offset⟩, inside⟩ := node
  simp only [Block.stop] at above offset inside
  have large : 2 ^ (order + 1) ≤ root.size := by omega
  have lowHolds : root.Holds low := by
    simp only [Block.Holds, Block.stop]
    omega
  have highHolds : root.Holds (low + 2 ^ order) := by
    simp only [Block.Holds, Block.stop]
    omega
  have place : low - root.addr = 2 ^ order * (2 * steps) := by rw [offset, Nat.pow_succ, Nat.mul_assoc]
  have lowEven : (low - root.addr) / 2 ^ order % 2 = 0 := by
    rw [place, Nat.mul_div_cancel_left _ positive]
    omega
  have highPlace : low + 2 ^ order - root.addr = 2 ^ order * (2 * steps + 1) := by
    rw [Nat.mul_add, ← place]
    omega
  have highOdd : (low + 2 ^ order - root.addr) / 2 ^ order % 2 ≠ 0 := by
    rw [highPlace, Nat.mul_div_cancel_left _ positive]
    omega
  constructor
  · rw [otherHalf, find_root whole root member low lowHolds, Option.bind_some, if_pos large, xor_two_pow, if_pos lowEven]
    congr 1
    omega
  · rw [otherHalf, find_root whole root member _ highHolds, Option.bind_some, if_pos large, xor_two_pow, if_neg highOdd]
    congr 1
    omega

-- A part with another half is one half of the part above.
theorem other_half_spec (whole : Cut cut base n) (root : Block) (member : root ∈ cut) (p order half : Nat) (node : Node root ⟨p, 2 ^ order⟩)
    (other : otherHalf cut p order = some half) :
    (half = p + 2 ^ order ∧ Node root ⟨p, 2 ^ (order + 1)⟩) ∨ (p = half + 2 ^ order ∧ Node root ⟨half, 2 ^ (order + 1)⟩) := by
  have positive := Nat.two_pow_pos order
  have double := two_pow_halves order
  have holds := node_holds root p order node
  rw [otherHalf, find_root whole root member p holds, Option.bind_some] at other
  by_cases large : 2 ^ (order + 1) ≤ root.size
  · rw [if_pos large, Option.some.injEq] at other
    obtain ⟨above, ⟨steps, offset⟩, inside⟩ := node
    simp only [Block.stop] at above offset inside
    obtain ⟨top, _, size⟩ := whole.powers root member
    have divides : 2 ^ (order + 1) ∣ root.size := by
      rw [size] at large ⊢
      exact Nat.pow_dvd_pow 2 ((Nat.pow_le_pow_iff_right (by omega)).mp large)
    obtain ⟨parts, whole'⟩ := divides
    have parity : (p - root.addr) / 2 ^ order = steps := by rw [offset, Nat.mul_div_cancel_left _ positive]
    rw [xor_two_pow, parity] at other
    have above' : 2 ^ (order + 1) * (steps / 2) = 2 ^ order * (2 * (steps / 2)) := by rw [Nat.pow_succ, Nat.mul_assoc]
    have split : 2 ^ order * steps = 2 ^ order * (2 * (steps / 2)) + 2 ^ order * (steps % 2) := by rw [← Nat.mul_add, Nat.div_add_mod]
    have room : steps / 2 + 1 ≤ parts := by
      have fits : 2 ^ order * (steps + 1) ≤ 2 ^ order * (2 * parts) := by
        rw [Nat.mul_add, ← offset, ← Nat.mul_assoc, ← Nat.pow_succ, ← whole']
        omega
      have bound := Nat.le_of_mul_le_mul_left fits positive
      omega
    have fits : 2 ^ (order + 1) * (steps / 2 + 1) ≤ root.size := by
      rw [whole']
      exact Nat.mul_le_mul_left _ room
    rw [Nat.mul_add, above'] at fits
    by_cases even : steps % 2 = 0
    · left
      rw [if_pos even] at other
      rw [even, Nat.mul_zero] at split
      refine ⟨by omega, above, ⟨steps / 2, ?_⟩, ?_⟩
      · simp only
        omega
      · simp only [Block.stop]
        omega
    · right
      have odd : steps % 2 = 1 := by omega
      rw [if_neg even] at other
      rw [odd, Nat.mul_one] at split
      refine ⟨by omega, by simp only; omega, ⟨steps / 2, ?_⟩, ?_⟩
      · simp only
        omega
      · simp only [Block.stop]
        omega
  · rw [if_neg large] at other
    exact absurd other (by simp)

end Halves

section Tree

variable {cut : List Block} {freeList : Nat → List Nat} {taken : List Block} {p order : Nat}

theorem free_list_subset (other : Nat → List Nat) (fewer : ∀ order, order < maxOrder → ∀ q ∈ other order, q ∈ freeList order) (b : Block)
    (member : b ∈ freeBlocks other) : b ∈ freeBlocks freeList := by
  obtain ⟨order, small, q, listed, same⟩ := (mem_free_blocks other b).mp member
  exact (mem_free_blocks freeList b).mpr ⟨order, small, q, fewer order small q listed, same⟩

-- Fewer blocks on the lists, and other ones in hand that are parts.
theorem TreeInv.fewer (tree : TreeInv cut freeList taken) (other : Nat → List Nat) (taken' : List Block)
    (fewer : ∀ order, order < maxOrder → ∀ q ∈ other order, q ∈ freeList order) (parts : ∀ b ∈ taken', ∃ root ∈ cut, Node root b) :
    TreeInv cut other taken' where
  nodes := by
    intro b member
    cases List.mem_append.mp member with
    | inl inHand => exact parts b inHand
    | inr free => exact tree.nodes b (List.mem_append_right _ (free_list_subset other fewer b free))
  noPair := by
    intro root rootMember low order small node both
    exact tree.noPair root rootMember low order small node ⟨fewer order small low both.1, fewer order small _ both.2⟩

-- A part goes on its list while its other half is not there.
theorem TreeInv.add {base n : Nat} (whole : Cut cut base n) (tree : TreeInv cut freeList taken) (small : order < maxOrder)
    (part : ∃ root ∈ cut, Node root ⟨p, 2 ^ order⟩) (alone : ∀ half, otherHalf cut p order = some half → half ∉ freeList order ∧ half ≠ p) :
    TreeInv cut (Function.update freeList order (freeList order ++ [p])) taken where
  nodes := by
    intro b member
    cases List.mem_append.mp member with
    | inl inHand => exact tree.nodes b (List.mem_append_left _ inHand)
    | inr free =>
        have perm := (free_blocks_add freeList order p small).mem_iff.mp free
        cases List.mem_cons.mp perm with
        | inl same => exact same ▸ part
        | inr before => exact tree.nodes b (List.mem_append_right _ before)
  noPair := by
    intro root member low other smallOther node both
    by_cases here : other = order
    · subst here
      obtain ⟨lowHalf, highHalf⟩ := other_half_pair whole root member low other node
      simp only [Function.update_self, List.mem_append, List.mem_singleton] at both
      obtain ⟨lowIn, highIn⟩ := both
      by_cases isLow : low = p
      · subst isLow
        obtain ⟨absent, apart⟩ := alone _ lowHalf
        exact highIn.elim absent apart
      · by_cases isHigh : low + 2 ^ other = p
        · subst isHigh
          obtain ⟨absent, apart⟩ := alone _ highHalf
          exact lowIn.elim absent apart
        · exact tree.noPair root member low other smallOther node ⟨lowIn.resolve_right isLow, highIn.resolve_right isHigh⟩
    · simp only [Function.update_of_ne here] at both
      exact tree.noPair root member low other smallOther node both

-- With no two halves free, blocks that tile the region are the ones of the cut.
theorem TreeInv.all_roots {base n : Nat} (whole : Cut cut base n) (tree : TreeInv cut freeList []) (tiles : Tiles (freeBlocks freeList) base n)
    (order : Nat) : ∀ p, p ∈ freeList order → order < maxOrder → ⟨p, 2 ^ order⟩ ∈ cut := by
  induction order using Nat.strong_induction_on with
  | _ order smaller =>
      intro p listed small
      have free := (free_block freeList order p small).mpr listed
      obtain ⟨root, member, node⟩ := tree.nodes _ free
      by_cases size : 2 ^ order = root.size
      · exact node_whole root _ node size ▸ member
      exfalso
      have positive := Nat.two_pow_pos order
      have double := two_pow_halves order
      obtain ⟨top, _, rootSize⟩ := whole.powers root member
      have large : 2 ^ (order + 1) ≤ root.size := by
        have above := node.above
        have inside := node.inside
        simp only [Block.stop] at above inside
        rw [rootSize] at size ⊢
        apply Nat.pow_le_pow_right (by omega)
        have bound : 2 ^ order ≤ 2 ^ top := by omega
        have atMost := (Nat.pow_le_pow_iff_right (by omega)).mp bound
        have apart : order ≠ top := fun same => size (by rw [same])
        omega
      have holds := node_holds root p order node
      have named : otherHalf cut p order = some (root.addr + ((p - root.addr) ^^^ 2 ^ order)) := by
        rw [otherHalf, find_root whole root member p holds, Option.bind_some, if_pos large]
      -- The part above, its lower half and its upper half.
      obtain ⟨low, partAbove, halves⟩ : ∃ low, Node root ⟨low, 2 ^ (order + 1)⟩ ∧ (p = low ∨ p = low + 2 ^ order) := by
        cases other_half_spec whole root member p order _ node named with
        | inl isLow => exact ⟨p, isLow.2, .inl rfl⟩
        | inr isHigh => exact ⟨_, isHigh.2, .inr isHigh.1⟩
      let half := if p = low then low + 2 ^ order else low
      have halfNode : Node root ⟨half, 2 ^ order⟩ := by
        rw [double] at partAbove
        have divides : 2 ^ order ∣ 2 ^ order + 2 ^ order := Dvd.intro_left 2 (by omega)
        by_cases isLow : p = low
        · simp only [half, if_pos isLow]
          exact node_trans root _ _ partAbove (node_high low (2 ^ order)) divides
        · simp only [half, if_neg isLow]
          exact node_trans root _ _ partAbove (node_low low (2 ^ order)) divides
      have halfHolds := node_holds root half order halfNode
      have inRegion := (tiles_covers whole.tiles half).mp ⟨root, member, halfHolds⟩
      obtain ⟨c, cFree, cHolds⟩ := (tiles_covers tiles half).mpr inRegion
      obtain ⟨other, smallOther, q, qListed, isC⟩ := (mem_free_blocks freeList c).mp cFree
      subst isC
      obtain ⟨root', member', node'⟩ := tree.nodes _ cFree
      have sameRoot : root' = root := by
        apply tiles_same whole.tiles root' root member' member half _ halfHolds
        have above := node'.above
        have inside := node'.inside
        exact ⟨above.trans cHolds.1, lt_of_lt_of_le cHolds.2 inside⟩
      subst sameRoot
      cases Nat.lt_trichotomy other order with
      | inl less =>
          -- A smaller block would be one of the cut, and all of this part's.
          have isRoot := smaller other less q qListed smallOther
          have same := tiles_same whole.tiles _ root' isRoot member' half cHolds halfHolds
          have shrinks : 2 ^ other < 2 ^ order := Nat.pow_lt_pow_right (by omega) less
          have sameSize : 2 ^ other = root'.size := by rw [← same]
          omega
      | inr rest =>
          cases rest with
          | inl equal =>
              subst equal
              have nested := node_nested root' ⟨q, 2 ^ other⟩ ⟨half, 2 ^ other⟩ node' halfNode (dvd_refl _) half cHolds (block_holds_first half other)
              have isHalf : q = half := by
                simp only [Block.stop] at nested
                omega
              rw [isHalf] at qListed
              apply tree.noPair root' member' low other small partAbove
              by_cases isLow : p = low
              · simp only [half, if_pos isLow] at qListed
                exact ⟨isLow ▸ listed, qListed⟩
              · simp only [half, if_neg isLow] at qListed
                exact ⟨qListed, (halves.resolve_left isLow) ▸ listed⟩
          | inr more =>
              -- A larger block would hold p too.
              have inPart : Block.Holds ⟨low, 2 ^ (order + 1)⟩ half ∧ Block.Holds ⟨low, 2 ^ (order + 1)⟩ p := by
                simp only [Block.Holds, Block.stop, half]
                split <;> omega
              have nested := node_nested root' ⟨q, 2 ^ other⟩ ⟨low, 2 ^ (order + 1)⟩ node' partAbove (Nat.pow_dvd_pow 2 more) half cHolds inPart.1
              have holdsP : Block.Holds ⟨q, 2 ^ other⟩ p := ⟨nested.1.trans inPart.2.1, lt_of_lt_of_le inPart.2.2 nested.2⟩
              have same := tiles_same tiles _ _ cFree free p holdsP (block_holds_first p order)
              have sameOrder : other = order := Nat.pow_right_injective (le_refl 2) (Block.mk.inj same).2
              omega

end Tree

end Ucore.Pmm.Buddy
