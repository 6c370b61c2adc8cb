import Mathlib.Algebra.Order.BigOperators.Group.List
import Mathlib.Algebra.Order.Group.Nat
import Mathlib.Data.List.Pairwise
import Mathlib.Data.Nat.Bitwise
import Ucore.Lib.Blocks

set_option autoImplicit false

namespace Ucore.Lib

-- How often a unit is in a block: once or not.
def Block.span (unit : Nat) (b : Block) : Nat := if b.addr ≤ unit ∧ unit < b.stop then 1 else 0

-- Blocks in any order that hold every unit of a region once, and no other unit.
structure Tiles (blocks : List Block) (base n : Nat) : Prop where
  once : ∀ unit, (blocks.map (Block.span unit)).sum = if base ≤ unit ∧ unit < base + n then 1 else 0
  size : total blocks = n

section Tiling

variable {blocks : List Block} {base n : Nat}

theorem span_mk (addr size unit : Nat) : Block.span unit ⟨addr, size⟩ = if addr ≤ unit ∧ unit < addr + size then 1 else 0 := rfl

theorem span_holds (b : Block) (unit : Nat) : b.span unit = 1 ↔ b.Holds unit := by
  unfold Block.span Block.Holds
  split <;> simp_all

theorem tiles_perm (others : List Block) (same : blocks.Perm others) (tiles : Tiles blocks base n) : Tiles others base n where
  once := by
    intro unit
    rw [← (same.map (Block.span unit)).sum_eq]
    exact tiles.once unit
  size := by
    rw [total, ← (same.map Block.size).sum_eq]
    exact tiles.size

theorem span_split (p low high unit : Nat) : Block.span unit ⟨p, low + high⟩ = Block.span unit ⟨p, low⟩ + Block.span unit ⟨p + low, high⟩ := by
  simp only [span_mk]
  split <;> split <;> split <;> omega

theorem tiles_split (p low high : Nat) (rest : List Block) :
    Tiles (⟨p, low + high⟩ :: rest) base n ↔ Tiles (⟨p, low⟩ :: ⟨p + low, high⟩ :: rest) base n := by
  constructor
  · intro tiles
    constructor
    · intro unit
      have once := tiles.once unit
      simp only [List.map_cons, List.sum_cons, span_split] at once ⊢
      omega
    · have size := tiles.size
      simp only [total_cons] at size ⊢
      omega
  · intro tiles
    constructor
    · intro unit
      have once := tiles.once unit
      simp only [List.map_cons, List.sum_cons, span_split] at once ⊢
      omega
    · have size := tiles.size
      simp only [total_cons] at size ⊢
      omega

theorem span_le_sum (b : Block) (unit : Nat) (member : b ∈ blocks) : b.span unit ≤ (blocks.map (Block.span unit)).sum :=
  List.le_sum_of_mem (List.mem_map_of_mem member)

theorem tiles_covers (tiles : Tiles blocks base n) (unit : Nat) : Covers blocks unit ↔ base ≤ unit ∧ unit < base + n := by
  have once := tiles.once unit
  constructor
  · intro ⟨b, member, holds⟩
    have here := span_le_sum b unit member
    have one := (span_holds b unit).mpr holds
    by_contra outside
    rw [if_neg outside] at once
    omega
  · intro inside
    rw [if_pos inside] at once
    by_contra none'
    have zero : (blocks.map (Block.span unit)).sum = 0 := by
      apply List.sum_eq_zero
      intro count member
      obtain ⟨b, inBlocks, same⟩ := List.mem_map.mp member
      subst same
      by_contra positive
      apply none'
      refine ⟨b, inBlocks, (span_holds b unit).mp ?_⟩
      unfold Block.span at positive ⊢
      split at positive <;> simp_all
    omega

theorem once_apart (blocks : List Block) (once : ∀ unit, (blocks.map (Block.span unit)).sum ≤ 1) : blocks.Pairwise Block.Apart := by
  induction blocks with
  | nil => exact List.Pairwise.nil
  | cons b rest ih =>
      refine List.pairwise_cons.mpr ⟨?_, ?_⟩
      · intro c member unit both
        have first := (span_holds b unit).mpr both.1
        have second := (span_holds c unit).mpr both.2
        have bound := once unit
        have inRest := span_le_sum c unit member
        simp only [List.map_cons, List.sum_cons] at bound
        omega
      · apply ih
        intro unit
        have bound := once unit
        simp only [List.map_cons, List.sum_cons] at bound
        omega

theorem tiles_apart (tiles : Tiles blocks base n) : blocks.Pairwise Block.Apart := by
  apply once_apart
  intro unit
  rw [tiles.once unit]
  split <;> omega

theorem tiles_head (b : Block) (rest : List Block) (tiles : Tiles (b :: rest) base n) (c : Block) (member : c ∈ rest) (unit : Nat)
    (here : b.Holds unit) : ¬ c.Holds unit := fun there => (List.pairwise_cons.mp (tiles_apart tiles)).1 c member unit ⟨here, there⟩

theorem tiles_same (tiles : Tiles blocks base n) (b c : Block) (bMember : b ∈ blocks) (cMember : c ∈ blocks) (unit : Nat)
    (inB : b.Holds unit) (inC : c.Holds unit) : b = c :=
  apart_unique blocks (tiles_apart tiles) b c bMember cMember unit inB inC

end Tiling

-- A part of a block that halving cuts out of it, for sizes that are powers of two.
structure Node (root b : Block) : Prop where
  above : root.addr ≤ b.addr
  aligned : b.size ∣ b.addr - root.addr
  inside : b.stop ≤ root.stop

section Nodes

theorem node_refl (b : Block) : Node b b := ⟨le_refl _, by simp, le_refl _⟩

theorem node_trans (a b c : Block) (outer : Node a b) (inner : Node b c) (divides : c.size ∣ b.size) : Node a c where
  above := outer.above.trans inner.above
  aligned := by
    have whole : c.addr - a.addr = (c.addr - b.addr) + (b.addr - a.addr) := by
      have first := outer.above
      have second := inner.above
      omega
    rw [whole]
    exact Nat.dvd_add inner.aligned (divides.trans outer.aligned)
  inside := inner.inside.trans outer.inside

theorem node_halves (p half : Nat) (b : Block) (divides : b.size ∣ half) (node : Node ⟨p, half + half⟩ b) :
    Node ⟨p, half⟩ b ∨ Node ⟨p + half, half⟩ b := by
  obtain ⟨above, ⟨steps, offset⟩, inside⟩ := node
  obtain ⟨parts, half'⟩ := divides
  simp only [Block.stop] at above offset inside
  by_cases low : steps < parts
  · left
    have fits : b.size * (steps + 1) ≤ b.size * parts := Nat.mul_le_mul_left _ low
    rw [Nat.mul_add] at fits
    exact ⟨above, ⟨steps, offset⟩, by simp only [Block.stop]; omega⟩
  · right
    have exceeds : b.size * parts ≤ b.size * steps := Nat.mul_le_mul_left _ (by omega)
    refine ⟨by simp only; omega, ⟨steps - parts, ?_⟩, by simp only [Block.stop]; omega⟩
    simp only
    rw [Nat.mul_sub]
    omega

theorem node_low (p half : Nat) : Node ⟨p, half + half⟩ ⟨p, half⟩ := ⟨le_refl _, by simp, by simp only [Block.stop]; omega⟩

theorem node_high (p half : Nat) : Node ⟨p, half + half⟩ ⟨p + half, half⟩ := ⟨by simp, by simp, by simp only [Block.stop]; omega⟩

-- Two parts of one block that share a unit: the smaller is inside the larger.
theorem node_nested (root big small : Block) (bigNode : Node root big) (smallNode : Node root small) (divides : small.size ∣ big.size)
    (unit : Nat) (inBig : big.Holds unit) (inSmall : small.Holds unit) : big.addr ≤ small.addr ∧ small.stop ≤ big.stop := by
  obtain ⟨bigAbove, ⟨bigSteps, bigOffset⟩, _⟩ := bigNode
  obtain ⟨smallAbove, ⟨steps, offset⟩, _⟩ := smallNode
  obtain ⟨parts, size⟩ := divides
  have bigPlace : big.addr - root.addr = small.size * (parts * bigSteps) := by rw [bigOffset, size, Nat.mul_assoc]
  simp only [Block.Holds, Block.stop] at inBig inSmall ⊢
  have positive : 0 < small.size := by omega
  have lower : parts * bigSteps < steps + 1 := by
    apply Nat.lt_of_mul_lt_mul_left (a := small.size)
    rw [Nat.mul_add]
    omega
  have upper : steps < parts * bigSteps + parts := by
    apply Nat.lt_of_mul_lt_mul_left (a := small.size)
    rw [Nat.mul_add]
    omega
  have from' : small.size * (parts * bigSteps) ≤ small.size * steps := Nat.mul_le_mul_left _ (by omega)
  have until' : small.size * (steps + 1) ≤ small.size * (parts * bigSteps + parts) := Nat.mul_le_mul_left _ (by omega)
  rw [Nat.mul_add, Nat.mul_add] at until'
  omega

-- The part of a block that starts and is as large is the block.
theorem node_whole (root b : Block) (node : Node root b) (size : b.size = root.size) : b = root := by
  obtain ⟨above, _, inside⟩ := node
  simp only [Block.stop] at inside
  cases b
  cases root
  simp only [Block.mk.injEq] at *
  omega

theorem two_pow_halves (order : Nat) : 2 ^ (order + 1) = 2 ^ order + 2 ^ order := by
  rw [Nat.pow_succ]
  omega

end Nodes

section Xor

theorem xor_one (n : Nat) : n ^^^ 1 = if n % 2 = 0 then n + 1 else n - 1 := by
  by_cases even : n % 2 = 0
  · rw [if_pos even, Nat.xor_one_of_even (Nat.even_iff.mpr even)]
  · rw [if_neg even, Nat.xor_one_of_odd (Nat.odd_iff.mpr (by omega))]

-- A flipped bit moves a number up or down by its weight.
theorem xor_two_pow (n order : Nat) : n ^^^ 2 ^ order = if n / 2 ^ order % 2 = 0 then n + 2 ^ order else n - 2 ^ order := by
  have high : (n ^^^ 2 ^ order) / 2 ^ order = n / 2 ^ order ^^^ 1 := by
    rw [Nat.xor_div_two_pow, Nat.div_self (Nat.two_pow_pos order)]
  have low : (n ^^^ 2 ^ order) % 2 ^ order = n % 2 ^ order := by rw [Nat.xor_mod_two_pow, Nat.mod_self, Nat.xor_zero]
  have whole := Nat.div_add_mod (n ^^^ 2 ^ order) (2 ^ order)
  have before := Nat.div_add_mod n (2 ^ order)
  rw [high, low, xor_one] at whole
  by_cases even : n / 2 ^ order % 2 = 0
  · rw [if_pos even, Nat.mul_add, Nat.mul_one] at whole
    rw [if_pos even]
    omega
  · rw [if_neg even, Nat.mul_sub, Nat.mul_one] at whole
    have covered : 2 ^ order ≤ 2 ^ order * (n / 2 ^ order) := by
      apply Nat.le_mul_of_pos_right
      by_contra zero
      simp [Nat.eq_zero_of_not_pos zero] at even
    rw [if_neg even]
    omega

theorem flipped_pair (n order : Nat) :
    (n ^^^ 2 ^ order = n + 2 ^ order) ∨ (2 ^ order ≤ n ∧ n ^^^ 2 ^ order = n - 2 ^ order) := by
  rw [xor_two_pow]
  by_cases even : n / 2 ^ order % 2 = 0
  · left
    rw [if_pos even]
  · right
    rw [if_neg even]
    refine ⟨?_, rfl⟩
    by_contra small
    rw [Nat.div_eq_of_lt (by omega)] at even
    exact even rfl

end Xor

end Ucore.Lib
