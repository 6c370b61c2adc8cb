import Ucore.Pmm.BuddyPmm

set_option autoImplicit false

namespace Ucore.Pmm.Buddy

open Ucore.Lib

-- The blocks on the free lists.
def freeBlocks (freeList : Nat → List Nat) : List Block :=
  (List.range maxOrder).flatMap fun order => (freeList order).map fun p => ⟨p, 2 ^ order⟩

section Lists

variable (freeList : Nat → List Nat) (order p : Nat)

theorem mem_free_blocks (b : Block) :
    b ∈ freeBlocks freeList ↔ ∃ order, order < maxOrder ∧ ∃ p ∈ freeList order, (⟨p, 2 ^ order⟩ : Block) = b := by
  simp [freeBlocks]

theorem free_block (small : order < maxOrder) : (⟨p, 2 ^ order⟩ : Block) ∈ freeBlocks freeList ↔ p ∈ freeList order := by
  rw [mem_free_blocks]
  constructor
  · intro ⟨other, _, q, member, same⟩
    obtain ⟨sameP, sameSize⟩ := Block.mk.inj same
    obtain rfl := Nat.pow_right_injective (le_refl 2) sameSize
    exact sameP ▸ member
  · exact fun member => ⟨order, small, p, member, rfl⟩

def otherBlocks : List Block :=
  ((List.range maxOrder).erase order).flatMap fun other => (freeList other).map fun p => ⟨p, 2 ^ other⟩

theorem free_blocks_update (small : order < maxOrder) (ps : List Nat) :
    (freeBlocks (Function.update freeList order ps)).Perm ((ps.map fun p => ⟨p, 2 ^ order⟩) ++ otherBlocks freeList order) := by
  have first := List.perm_cons_erase (List.mem_range.mpr small)
  have whole := first.flatMap_right fun other => (Function.update freeList order ps other).map fun p => (⟨p, 2 ^ other⟩ : Block)
  have rest : (((List.range maxOrder).erase order).flatMap fun other => (Function.update freeList order ps other).map fun p => (⟨p, 2 ^ other⟩ : Block)) =
      otherBlocks freeList order := by
    unfold otherBlocks
    apply List.flatMap_congr
    intro other member
    have apart : other ≠ order := (List.nodup_range.mem_erase_iff.mp member).1
    simp [apart]
  rw [List.flatMap_cons, rest, Function.update_self] at whole
  exact whole

theorem free_blocks_order (small : order < maxOrder) :
    (freeBlocks freeList).Perm (((freeList order).map fun p => ⟨p, 2 ^ order⟩) ++ otherBlocks freeList order) := by
  have same := free_blocks_update freeList order small (freeList order)
  rwa [Function.update_eq_self] at same

theorem free_blocks_add (small : order < maxOrder) :
    (freeBlocks (Function.update freeList order (freeList order ++ [p]))).Perm (⟨p, 2 ^ order⟩ :: freeBlocks freeList) := by
  apply (free_blocks_update freeList order small (freeList order ++ [p])).trans
  rw [List.map_append]
  apply ((List.perm_append_singleton _ _).append_right _).trans
  exact (free_blocks_order freeList order small).symm.cons _

theorem free_blocks_del (small : order < maxOrder) (member : p ∈ freeList order) :
    (freeBlocks freeList).Perm (⟨p, 2 ^ order⟩ :: freeBlocks (Function.update freeList order ((freeList order).erase p))) := by
  apply (free_blocks_order freeList order small).trans
  apply (((List.perm_cons_erase member).map fun p => (⟨p, 2 ^ order⟩ : Block)).append_right _).trans
  exact (free_blocks_update freeList order small ((freeList order).erase p)).symm.cons _

end Lists

-- What is left of a flag that buddy_free_pages does not clear: the page is the
-- upper half of a part of a block that is one again.
def Stale (blocks : List Block) (x order : Nat) : Prop :=
  ∃ b ∈ blocks, ∃ low, x = low + 2 ^ order ∧ x ^^^ 2 ^ order = low ∧ Node b ⟨low, 2 ^ (order + 1)⟩

-- The blocks of the region: cur are the ones that a call has in its hands, held
-- the live ones.
structure BuddyInv (s : BuddyState) (base n : Nat) (cur held : List Block) : Prop where
  tiles : Tiles (cur ++ held ++ freeBlocks s.freeList) base n
  powers : ∀ b ∈ cur ++ held, ∃ order, order < maxOrder ∧ b.size = 2 ^ order
  counted : ∀ order, s.nrFree order = BitVec.ofNat 32 (s.freeList order).length
  sized : ∀ order, order < maxOrder → ∀ p ∈ s.freeList order, (s.page p).property = 2 ^ order
  flagged : ∀ x, (s.page x).pgProperty = true → ∃ order, order < maxOrder ∧ (s.page x).property = 2 ^ order ∧
    ((⟨x, 2 ^ order⟩ ∈ cur ∨ x ∈ s.freeList order) ∨ Stale (cur ++ held ++ freeBlocks s.freeList) x order)
  owned : ∀ b ∈ held, (s.page b.addr).pgProperty = false
  unreserved : ∀ x, base ≤ x → x < base + n → (s.page x).pgReserved = false

section Steps

variable {s : BuddyState} {base n p order : Nat} {cur held : List Block}

theorem stale_mono (blocks others : List Block) (x order : Nat) (more : ∀ b ∈ blocks, b ∈ others) (stale : Stale blocks x order) :
    Stale others x order := by
  obtain ⟨b, member, low, rest⟩ := stale
  exact ⟨b, more b member, low, rest⟩

theorem BuddyInv.power (inv : BuddyInv s base n cur held) (b : Block) (member : b ∈ cur ++ held ++ freeBlocks s.freeList) :
    ∃ order, order < maxOrder ∧ b.size = 2 ^ order := by
  cases List.mem_append.mp member with
  | inl taken => exact inv.powers b taken
  | inr free =>
      obtain ⟨order, small, p, _, same⟩ := (mem_free_blocks s.freeList b).mp free
      exact ⟨order, small, by rw [← same]⟩

theorem block_holds_first (p order : Nat) : Block.Holds ⟨p, 2 ^ order⟩ p :=
  ⟨le_refl _, Nat.lt_add_of_pos_right (Nat.two_pow_pos order)⟩

-- A buddy that seems to be free is on the list of its order.
theorem BuddyInv.buddy_listed (inv : BuddyInv s base n [⟨p, 2 ^ order⟩] held) (free : isBuddyFree s (p ^^^ 2 ^ order) order = true) :
    p ^^^ 2 ^ order ∈ s.freeList order := by
  unfold isBuddyFree at free
  rw [Bool.and_eq_true, decide_eq_true_eq] at free
  obtain ⟨flag, size⟩ := free
  obtain ⟨other, _, sized, place⟩ := inv.flagged _ flag
  obtain rfl : order = other := Nat.pow_right_injective (le_refl 2) (size.symm.trans sized)
  cases place with
  | inl there =>
      cases there with
      | inl current =>
          have same : p ^^^ 2 ^ order = p := (Block.mk.inj (List.mem_singleton.mp current)).1
          have positive := Nat.two_pow_pos order
          have flipped := flipped_pair p order
          omega
      | inr listed => exact listed
  | inr stale =>
      -- The lower half of that part would be the block in hand, which is smaller.
      obtain ⟨b, member, low, _, flips, node⟩ := stale
      rw [Nat.xor_assoc, Nat.xor_self, Nat.xor_zero] at flips
      subst flips
      have holds : b.Holds p := by
        have above := node.above
        have inside := node.inside
        have positive := Nat.two_pow_pos (order + 1)
        simp only [Block.Holds, Block.stop] at above inside ⊢
        omega
      have same := tiles_same inv.tiles b ⟨p, 2 ^ order⟩ member (by simp) p holds (block_holds_first p order)
      have inside := node.inside
      have positive := Nat.two_pow_pos order
      rw [same] at inside
      simp only [Block.stop, Nat.pow_succ] at inside
      omega

theorem BuddyInv.reorder (cur' held' : List Block) (inv : BuddyInv s base n cur held) (curPerm : cur.Perm cur') (heldPerm : held.Perm held') :
    BuddyInv s base n cur' held' := by
  have perm : (cur ++ held ++ freeBlocks s.freeList).Perm (cur' ++ held' ++ freeBlocks s.freeList) := (curPerm.append heldPerm).append_right _
  constructor
  · exact tiles_perm _ perm inv.tiles
  · exact fun b taken => inv.powers b ((curPerm.append heldPerm).mem_iff.mpr taken)
  · exact inv.counted
  · exact inv.sized
  · intro x flag
    obtain ⟨other, small, size, place⟩ := inv.flagged x flag
    refine ⟨other, small, size, ?_⟩
    cases place with
    | inl there => exact .inl (there.imp_left curPerm.mem_iff.mp)
    | inr stale => exact .inr (stale_mono _ _ x other (fun b => perm.mem_iff.mp) stale)
  · exact fun b live => inv.owned b (heldPerm.mem_iff.mpr live)
  · exact inv.unreserved

-- A block in hand holds the first page of no other block.
theorem BuddyInv.cur_apart (b : Block) (inv : BuddyInv s base n (b :: cur) held) (c : Block) (member : c ∈ cur ++ held ++ freeBlocks s.freeList)
    (holds : b.Holds c.addr) : False := by
  obtain ⟨order, _, size⟩ := inv.power c (by simp at member ⊢; tauto)
  have first : c.Holds c.addr := by
    have positive := Nat.two_pow_pos order
    simp only [Block.Holds, Block.stop, size]
    omega
  exact tiles_head b _ inv.tiles c member c.addr holds first

theorem BuddyInv.cur_unlisted (b : Block) (inv : BuddyInv s base n (b :: cur) held) (x : Nat) (holds : b.Holds x) (small : order < maxOrder) :
    x ∉ s.freeList order := by
  intro listed
  have member : (⟨x, 2 ^ order⟩ : Block) ∈ freeBlocks s.freeList := (free_block s.freeList order x small).mpr listed
  exact inv.cur_apart b ⟨x, 2 ^ order⟩ (List.mem_append_right _ member) holds

-- A block off its list, with its flag cleared.
def taken (s : BuddyState) (order p : Nat) : BuddyState :=
  let s := { s with
    freeList := Function.update s.freeList order ((s.freeList order).erase p)
    nrFree := Function.update s.nrFree order (s.nrFree order - 1) }
  s.setPage p { s.page p with pgProperty := false }

theorem del_block_taken (member : p ∈ s.freeList order) :
    ∃ next, s.delBlock order p = .ok next ∧ next.setPage p { next.page p with pgProperty := false } = taken s order p := by
  refine ⟨_, ?_, rfl⟩
  simp [BuddyState.delBlock, member]

theorem counted_add (count : Nat) : BitVec.ofNat 32 count + 1 = BitVec.ofNat 32 (count + 1) := by
  apply BitVec.eq_of_toNat_eq
  simp

theorem counted_del (count : Nat) (positive : 0 < count) : BitVec.ofNat 32 count - 1 = BitVec.ofNat 32 (count - 1) := by
  have back := counted_add (count - 1)
  rw [Nat.sub_add_cancel positive] at back
  rw [← back, BitVec.add_sub_cancel]

theorem BuddyInv.take (inv : BuddyInv s base n cur held) (small : order < maxOrder) (member : p ∈ s.freeList order) :
    BuddyInv (taken s order p) base n (⟨p, 2 ^ order⟩ :: cur) held := by
  have perm : (cur ++ held ++ freeBlocks s.freeList).Perm
      (⟨p, 2 ^ order⟩ :: cur ++ held ++ freeBlocks (taken s order p).freeList) := by
    have moved := (free_blocks_del s.freeList order p small member).append_left (cur ++ held)
    exact moved.trans List.perm_middle
  constructor
  · exact tiles_perm _ perm inv.tiles
  · intro b taken
    cases List.mem_cons.mp taken with
    | inl same => exact ⟨order, small, by rw [same]⟩
    | inr before => exact inv.powers b before
  · intro other
    by_cases here : other = order
    · subst here
      have positive : 0 < (s.freeList other).length := List.length_pos_of_mem member
      simp only [taken, BuddyState.setPage, Function.update_self, List.length_erase_of_mem member]
      rw [inv.counted other, counted_del _ positive]
    · simpa [taken, BuddyState.setPage, here] using inv.counted other
  · intro other smallOther q listed
    have before : q ∈ s.freeList other := by
      by_cases here : other = order
      · subst here
        simp only [taken, BuddyState.setPage, Function.update_self] at listed
        exact List.mem_of_mem_erase listed
      · simpa [taken, BuddyState.setPage, here] using listed
    by_cases first : q = p
    · subst first
      simpa [taken, BuddyState.setPage] using inv.sized other smallOther q before
    · simpa [taken, BuddyState.setPage, first] using inv.sized other smallOther q before
  · intro x flag
    have apart : x ≠ p := by
      intro same
      simp [taken, BuddyState.setPage, same] at flag
    have before : (s.page x).pgProperty = true := by simpa [taken, BuddyState.setPage, apart] using flag
    obtain ⟨other, smallOther, size, place⟩ := inv.flagged x before
    refine ⟨other, smallOther, by simpa [taken, BuddyState.setPage, apart] using size, ?_⟩
    cases place with
    | inl there =>
        left
        cases there with
        | inl current => exact .inl (List.mem_cons_of_mem _ current)
        | inr listed =>
            right
            by_cases here : other = order
            · subst here
              simpa [taken, BuddyState.setPage] using (List.mem_erase_of_ne apart).mpr listed
            · simpa [taken, BuddyState.setPage, here] using listed
    | inr stale => exact .inr (stale_mono _ _ x other (fun b => perm.mem_iff.mp) stale)
  · intro b live
    by_cases first : b.addr = p
    · simp [taken, BuddyState.setPage, first]
    · simpa [taken, BuddyState.setPage, first] using inv.owned b live
  · intro x low high
    by_cases first : x = p
    · subst first
      simpa [taken, BuddyState.setPage] using inv.unreserved x low high
    · simpa [taken, BuddyState.setPage, first] using inv.unreserved x low high

end Steps

end Ucore.Pmm.Buddy
