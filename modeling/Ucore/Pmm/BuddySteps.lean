import Ucore.Pmm.BuddyBlocks

set_option autoImplicit false

namespace Ucore.Pmm.Buddy

open Ucore.Lib

section Steps

variable {s : BuddyState} {base n p order : Nat} {cur held : List Block}

-- The block in hand goes to the list of its order.
theorem BuddyInv.insert (inv : BuddyInv s base n [⟨p, 2 ^ order⟩] held) (small : order < maxOrder) (size : (s.page p).property = 2 ^ order) :
    BuddyInv (s.addBlock order p) base n [] held := by
  have perm : ([(⟨p, 2 ^ order⟩ : Block)] ++ held ++ freeBlocks s.freeList).Perm ([] ++ held ++ freeBlocks (s.addBlock order p).freeList) := by
    have moved := (free_blocks_add s.freeList order p small).append_left held
    exact List.perm_middle.symm.trans moved.symm
  have listed : ∀ other q, q ∈ (s.addBlock order p).freeList other ↔ q ∈ s.freeList other ∨ (other = order ∧ q = p) := by
    intro other q
    by_cases here : other = order
    · subst here
      simp [BuddyState.addBlock]
    · simp [BuddyState.addBlock, here]
  constructor
  · exact tiles_perm _ perm inv.tiles
  · exact fun b live => inv.powers b (List.mem_cons_of_mem _ live)
  · intro other
    by_cases here : other = order
    · subst here
      simp only [BuddyState.addBlock, Function.update_self, List.length_append, List.length_singleton]
      rw [inv.counted other, counted_add]
    · simpa [BuddyState.addBlock, here] using inv.counted other
  · intro other smallOther q member
    cases (listed other q).mp member with
    | inl before => exact inv.sized other smallOther q before
    | inr fresh =>
        obtain ⟨isOrder, isP⟩ := fresh
        subst isOrder isP
        exact size
  · intro x flag
    obtain ⟨other, smallOther, sized, place⟩ := inv.flagged x flag
    refine ⟨other, smallOther, sized, ?_⟩
    cases place with
    | inl there =>
        left
        right
        cases there with
        | inl current =>
            obtain ⟨isP, isSize⟩ := Block.mk.inj (List.mem_singleton.mp current)
            obtain rfl : other = order := Nat.pow_right_injective (le_refl 2) isSize
            exact (listed other x).mpr (.inr ⟨rfl, isP⟩)
        | inr before => exact (listed other x).mpr (.inl before)
    | inr stale => exact .inr (stale_mono _ _ x other (fun b => perm.mem_iff.mp) stale)
  · exact inv.owned
  · exact inv.unreserved

-- The block in hand is granted.
theorem BuddyInv.grant (inv : BuddyInv s base n [⟨p, 2 ^ order⟩] held) :
    BuddyInv (s.setPage p { s.page p with property := 2 ^ order, pgProperty := false }) base n [] (⟨p, 2 ^ order⟩ :: held) := by
  constructor
  · exact inv.tiles
  · exact inv.powers
  · exact inv.counted
  · intro other smallOther q member
    have apart : q ≠ p := by
      intro same
      exact inv.cur_unlisted ⟨p, 2 ^ order⟩ p (block_holds_first p order) smallOther (same ▸ member)
    simpa [BuddyState.setPage, apart] using inv.sized other smallOther q member
  · intro x flag
    have apart : x ≠ p := by
      intro same
      simp [BuddyState.setPage, same] at flag
    have before : (s.page x).pgProperty = true := by simpa [BuddyState.setPage, apart] using flag
    obtain ⟨other, smallOther, sized, place⟩ := inv.flagged x before
    refine ⟨other, smallOther, by simpa [BuddyState.setPage, apart] using sized, ?_⟩
    cases place with
    | inl there =>
        left
        right
        cases there with
        | inl current => exact absurd (Block.mk.inj (List.mem_singleton.mp current)).1 apart
        | inr listed => exact listed
    | inr stale => exact .inr stale
  · intro b live
    cases List.mem_cons.mp live with
    | inl same => simp [BuddyState.setPage, same]
    | inr before =>
        by_cases first : b.addr = p
        · simp [BuddyState.setPage, first]
        · simpa [BuddyState.setPage, first] using inv.owned b before
  · intro x low high
    by_cases first : x = p
    · subst first
      simpa [BuddyState.setPage] using inv.unreserved x low high
    · simpa [BuddyState.setPage, first] using inv.unreserved x low high

-- A live block is given back.
theorem BuddyInv.giveBack (inv : BuddyInv s base n [] held) (member : ⟨p, 2 ^ order⟩ ∈ held) (small : order < maxOrder) :
    BuddyInv (s.setPage p { s.page p with property := 2 ^ order, pgProperty := true }) base n [⟨p, 2 ^ order⟩]
      (held.erase ⟨p, 2 ^ order⟩) := by
  have perm : ([] ++ held ++ freeBlocks s.freeList).Perm ([(⟨p, 2 ^ order⟩ : Block)] ++ held.erase ⟨p, 2 ^ order⟩ ++ freeBlocks s.freeList) := by
    apply List.Perm.append_right
    exact List.perm_cons_erase member
  have inHand : Tiles (⟨p, 2 ^ order⟩ :: (held.erase ⟨p, 2 ^ order⟩ ++ freeBlocks s.freeList)) base n := tiles_perm _ perm inv.tiles
  constructor
  · exact inHand
  · intro b taken
    cases List.mem_append.mp taken with
    | inl here => exact ⟨order, small, by rw [List.mem_singleton.mp here]⟩
    | inr live => exact inv.powers b (List.mem_of_mem_erase live)
  · exact inv.counted
  · intro other smallOther q listed
    have apart : q ≠ p := by
      intro same
      have free := (free_block s.freeList other q smallOther).mpr listed
      have holds : Block.Holds ⟨q, 2 ^ other⟩ p := same ▸ block_holds_first q other
      exact tiles_head ⟨p, 2 ^ order⟩ _ inHand ⟨q, 2 ^ other⟩ (List.mem_append_right _ free) p (block_holds_first p order) holds
    simpa [BuddyState.setPage, apart] using inv.sized other smallOther q listed
  · intro x flag
    by_cases first : x = p
    · subst first
      exact ⟨order, small, by simp [BuddyState.setPage], .inl (.inl (by simp))⟩
    · have before : (s.page x).pgProperty = true := by simpa [BuddyState.setPage, first] using flag
      obtain ⟨other, smallOther, sized, place⟩ := inv.flagged x before
      refine ⟨other, smallOther, by simpa [BuddyState.setPage, first] using sized, ?_⟩
      cases place with
      | inl there => exact .inl (.inr (there.resolve_left (by simp)))
      | inr stale => exact .inr (stale_mono _ _ x other (fun b => perm.mem_iff.mp) stale)
  · intro b live
    have before := List.mem_of_mem_erase live
    have apart : b.addr ≠ p := by
      intro same
      obtain ⟨other, _, size⟩ := inv.powers b before
      have holds : b.Holds p := by
        have positive := Nat.two_pow_pos other
        simp only [Block.Holds, Block.stop, size]
        omega
      exact tiles_head ⟨p, 2 ^ order⟩ _ inHand b (List.mem_append_left _ live) p (block_holds_first p order) holds
    simpa [BuddyState.setPage, apart] using inv.owned b before
  · intro x low high
    by_cases first : x = p
    · subst first
      simpa [BuddyState.setPage] using inv.unreserved x low high
    · simpa [BuddyState.setPage, first] using inv.unreserved x low high

-- The upper half of the block in hand goes to the list of its order.
def halved (s : BuddyState) (order p : Nat) : BuddyState :=
  let buddy := p + 2 ^ order
  (s.setPage buddy { s.page buddy with property := 2 ^ order, pgProperty := true }).addBlock order buddy

theorem BuddyInv.halve (inv : BuddyInv s base n [⟨p, 2 ^ (order + 1)⟩] held) (small : order < maxOrder) (clear : (s.page p).pgProperty = false) :
    BuddyInv (halved s order p) base n [⟨p, 2 ^ order⟩] held := by
  have positive := Nat.two_pow_pos order
  have inWhole : Block.Holds ⟨p, 2 ^ (order + 1)⟩ (p + 2 ^ order) := by
    simp only [Block.Holds, Block.stop, Nat.pow_succ]
    omega
  have perm : ((⟨p, 2 ^ order⟩ : Block) :: ⟨p + 2 ^ order, 2 ^ order⟩ :: (held ++ freeBlocks s.freeList)).Perm
      ([⟨p, 2 ^ order⟩] ++ held ++ freeBlocks (halved s order p).freeList) := by
    have moved := (free_blocks_add s.freeList order (p + 2 ^ order) small).append_left held
    exact (List.perm_middle.symm.trans moved.symm).cons _
  have split : Tiles (⟨p, 2 ^ order⟩ :: ⟨p + 2 ^ order, 2 ^ order⟩ :: (held ++ freeBlocks s.freeList)) base n := by
    rw [← tiles_split, ← two_pow_halves]
    exact inv.tiles
  have listed : ∀ other q, q ∈ (halved s order p).freeList other ↔ q ∈ s.freeList other ∨ (other = order ∧ q = p + 2 ^ order) := by
    intro other q
    by_cases here : other = order
    · subst here
      simp [halved, BuddyState.addBlock, BuddyState.setPage]
    · simp [halved, BuddyState.addBlock, BuddyState.setPage, here]
  have elsewhere : ∀ x, x ≠ p + 2 ^ order → (halved s order p).page x = s.page x := by
    intro x apart
    simp [halved, BuddyState.addBlock, BuddyState.setPage, apart]
  have there : (halved s order p).page (p + 2 ^ order) = { s.page (p + 2 ^ order) with property := 2 ^ order, pgProperty := true } := by
    simp [halved, BuddyState.addBlock, BuddyState.setPage]
  constructor
  · exact tiles_perm _ perm split
  · intro b taken
    cases List.mem_cons.mp taken with
    | inl same => exact ⟨order, small, by rw [same]⟩
    | inr live => exact inv.powers b (List.mem_cons_of_mem _ live)
  · intro other
    by_cases here : other = order
    · subst here
      simp only [halved, BuddyState.addBlock, BuddyState.setPage, Function.update_self, List.length_append, List.length_singleton]
      rw [inv.counted other, counted_add]
    · simpa [halved, BuddyState.addBlock, BuddyState.setPage, here] using inv.counted other
  · intro other smallOther q member
    cases (listed other q).mp member with
    | inl before =>
        have apart : q ≠ p + 2 ^ order := by
          intro same
          exact inv.cur_unlisted ⟨p, 2 ^ (order + 1)⟩ q (same ▸ inWhole) smallOther before
        rw [elsewhere q apart]
        exact inv.sized other smallOther q before
    | inr fresh =>
        obtain ⟨isOrder, isBuddy⟩ := fresh
        subst isOrder isBuddy
        rw [there]
  · intro x flag
    by_cases isBuddy : x = p + 2 ^ order
    · subst isBuddy
      exact ⟨order, small, by rw [there], .inl (.inr ((listed order _).mpr (.inr ⟨rfl, rfl⟩)))⟩
    · rw [elsewhere x isBuddy] at flag ⊢
      obtain ⟨other, smallOther, sized, place⟩ := inv.flagged x flag
      refine ⟨other, smallOther, sized, ?_⟩
      cases place with
      | inl here =>
          cases here with
          | inl current =>
              have isP := (Block.mk.inj (List.mem_singleton.mp current)).1
              rw [isP, clear] at flag
              exact absurd flag (by simp)
          | inr before => exact .inl (.inr ((listed other x).mpr (.inl before)))
      | inr stale =>
          right
          obtain ⟨b, member, low, above, flips, node⟩ := stale
          cases List.mem_cons.mp member with
          | inr others =>
              refine ⟨b, ?_, low, above, flips, node⟩
              exact perm.mem_iff.mp (List.mem_cons_of_mem _ (List.mem_cons_of_mem _ others))
          | inl whole =>
              -- The part of the whole block itself would have its upper half at buddy.
              rw [whole, two_pow_halves] at node
              have smaller : other < order := by
                have aboveP := node.above
                have inside := node.inside
                simp only [Block.stop] at aboveP inside
                by_contra large
                have grows : 2 ^ (order + 1) ≤ 2 ^ (other + 1) := Nat.pow_le_pow_right (by omega) (by omega)
                have equal : 2 ^ (other + 1) = 2 ^ (order + 1) := by
                  have double := two_pow_halves order
                  omega
                have same : other + 1 = order + 1 := Nat.pow_right_injective (le_refl 2) equal
                have sameOrder : other = order := by omega
                subst sameOrder
                have double := two_pow_halves other
                omega
              have divides : 2 ^ (other + 1) ∣ 2 ^ order := Nat.pow_dvd_pow 2 (by omega)
              cases node_halves p (2 ^ order) ⟨low, 2 ^ (other + 1)⟩ divides node with
              | inl inLow => exact ⟨⟨p, 2 ^ order⟩, by simp, low, above, flips, inLow⟩
              | inr inHigh =>
                  refine ⟨⟨p + 2 ^ order, 2 ^ order⟩, ?_, low, above, flips, inHigh⟩
                  exact perm.mem_iff.mp (by simp)
  · intro b live
    have apart : b.addr ≠ p + 2 ^ order := by
      intro same
      exact inv.cur_apart ⟨p, 2 ^ (order + 1)⟩ b (by simp [live]) (same ▸ inWhole)
    rw [elsewhere b.addr apart]
    exact inv.owned b live
  · intro x low high
    by_cases isBuddy : x = p + 2 ^ order
    · subst isBuddy
      rw [there]
      exact inv.unreserved _ low high
    · rw [elsewhere x isBuddy]
      exact inv.unreserved x low high

-- Two buddies in hand become one block at the lower.
theorem BuddyInv.join (low : Nat) (inv : BuddyInv s base n [⟨low, 2 ^ order⟩, ⟨low + 2 ^ order, 2 ^ order⟩] held)
    (small : order + 1 < maxOrder) (flips : (low + 2 ^ order) ^^^ 2 ^ order = low) :
    BuddyInv (s.setPage low { s.page low with property := 2 ^ (order + 1) }) base n [⟨low, 2 ^ (order + 1)⟩] held := by
  have positive := Nat.two_pow_pos order
  have whole : Tiles ([⟨low, 2 ^ (order + 1)⟩] ++ held ++ freeBlocks s.freeList) base n := by
    have joined := (tiles_split low (2 ^ order) (2 ^ order) (held ++ freeBlocks s.freeList)).mpr inv.tiles
    rw [two_pow_halves]
    exact joined
  have stays : ∀ x other, Stale ([⟨low, 2 ^ order⟩, ⟨low + 2 ^ order, 2 ^ order⟩] ++ held ++ freeBlocks s.freeList) x other →
      Stale ([⟨low, 2 ^ (order + 1)⟩] ++ held ++ freeBlocks s.freeList) x other := by
    intro x other ⟨b, member, lower, above, flips, node⟩
    have divides : ∀ addr, b = ⟨addr, 2 ^ order⟩ → 2 ^ (other + 1) ∣ 2 ^ order := by
      intro addr same
      have aboveB := node.above
      have inside := node.inside
      rw [same] at aboveB inside
      simp only [Block.stop] at aboveB inside
      apply Nat.pow_dvd_pow 2
      by_contra large
      have grows : 2 ^ (order + 1) ≤ 2 ^ (other + 1) := Nat.pow_le_pow_right (by omega) (by omega)
      have double := two_pow_halves order
      omega
    by_cases isLow : b = ⟨low, 2 ^ order⟩
    · subst isLow
      refine ⟨⟨low, 2 ^ (order + 1)⟩, by simp, lower, above, flips, ?_⟩
      rw [two_pow_halves order]
      exact node_trans _ _ _ (node_low low (2 ^ order)) node (divides low rfl)
    · by_cases isHigh : b = ⟨low + 2 ^ order, 2 ^ order⟩
      · subst isHigh
        refine ⟨⟨low, 2 ^ (order + 1)⟩, by simp, lower, above, flips, ?_⟩
        rw [two_pow_halves order]
        exact node_trans _ _ _ (node_high low (2 ^ order)) node (divides _ rfl)
      · refine ⟨b, ?_, lower, above, flips, node⟩
        simp only [List.cons_append, List.nil_append, List.mem_cons, isLow, isHigh, false_or] at member
        exact List.mem_cons_of_mem _ member
  constructor
  · exact whole
  · intro b taken
    cases List.mem_cons.mp taken with
    | inl same => exact ⟨order + 1, small, by rw [same]⟩
    | inr live => exact inv.powers b (List.mem_append_right _ live)
  · exact inv.counted
  · intro other smallOther q listed
    have apart : q ≠ low := by
      intro same
      exact inv.cur_unlisted ⟨low, 2 ^ order⟩ low (block_holds_first low order) smallOther (same ▸ listed)
    simpa [BuddyState.setPage, apart] using inv.sized other smallOther q listed
  · intro x flag
    by_cases isLow : x = low
    · subst isLow
      exact ⟨order + 1, small, by simp [BuddyState.setPage], .inl (.inl (by simp))⟩
    · have before : (s.page x).pgProperty = true := by simpa [BuddyState.setPage, isLow] using flag
      obtain ⟨other, smallOther, sized, place⟩ := inv.flagged x before
      refine ⟨other, smallOther, by simpa [BuddyState.setPage, isLow] using sized, ?_⟩
      cases place with
      | inl there =>
          cases there with
          | inl current =>
              -- The upper buddy keeps its flag.
              have isHigh : (⟨x, 2 ^ other⟩ : Block) = ⟨low + 2 ^ order, 2 ^ order⟩ := by
                simpa [isLow] using current
              obtain ⟨xHigh, size⟩ := Block.mk.inj isHigh
              obtain rfl : other = order := Nat.pow_right_injective (le_refl 2) size
              exact .inr ⟨⟨low, 2 ^ (other + 1)⟩, by simp, low, xHigh, by rw [xHigh, flips], node_refl _⟩
          | inr listed => exact .inl (.inr listed)
      | inr stale => exact .inr (stays x other stale)
  · intro b live
    have apart : b.addr ≠ low := by
      intro same
      exact inv.cur_apart ⟨low, 2 ^ order⟩ b (by simp [live]) (same ▸ block_holds_first low order)
    simpa [BuddyState.setPage, apart] using inv.owned b live
  · intro x above below
    by_cases isLow : x = low
    · subst isLow
      simpa [BuddyState.setPage] using inv.unreserved x above below
    · simpa [BuddyState.setPage, isLow] using inv.unreserved x above below

end Steps

end Ucore.Pmm.Buddy
