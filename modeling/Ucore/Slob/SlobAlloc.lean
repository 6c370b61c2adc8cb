import Ucore.Slob.SlobFree

set_option autoImplicit false

namespace Ucore.Slob

open Ucore.Lib

theorem block_addr_holds (b : Block) (positive : 0 < b.size) : b.Holds b.addr :=
  ⟨Nat.le_refl _, by simp only [Block.stop]; omega⟩

theorem addr_covered (blocks : List Block) (nonempty : Nonempty blocks) (a : Nat) (member : a ∈ blocks.map Block.addr) : Covers blocks a := by
  obtain ⟨b, inside, rfl⟩ := List.mem_map.mp member
  exact ⟨b, inside, block_addr_holds b (nonempty b inside)⟩

-- The node before a block of a list that has others.
theorem prev_unique (h : Heap) (below above : List Block) (c : Block) (listed : Listed h (below ++ c :: above)) (others : below ++ above ≠ [])
    (prev : Nat) (member : prev ∈ (below ++ c :: above).map Block.addr) (before : h.next prev = c.addr) :
    ∃ mid, above.map Block.addr ++ below.map Block.addr = mid ++ [prev] := by
  rcases List.eq_nil_or_concat' (above.map Block.addr ++ below.map Block.addr) with nothing | ⟨mid, last, shape⟩
  · simp only [List.append_eq_nil_iff, List.map_eq_nil_iff] at nothing
    exact absurd (by simp [nothing]) others
  · have cycle := listed.cycle
    rw [List.map_append, List.map_cons] at cycle member
    have turned := (cycle_from_node h.next _ _ mid last c.addr shape).mp cycle
    have first : h.next last = c.addr := by
      rw [cycle_cons] at turned
      simp only [List.map_cons, List.cons_append, List.cons.injEq] at turned
      exact turned.1
    have sorted := sorted_nodup _ (addrs_sorted _ listed.ascending listed.nonempty)
    rw [List.map_append, List.map_cons] at sorted
    have lastIn : last ∈ below.map Block.addr ++ c.addr :: above.map Block.addr := by
      have inside : last ∈ above.map Block.addr ++ below.map Block.addr := by simp [shape]
      simp only [List.mem_append, List.mem_cons] at inside ⊢
      tauto
    have same := cycle_injective h.next _ sorted cycle prev last member lastIn (before.trans first.symm)
    exact ⟨mid, same ▸ shape⟩

-- The taking of units from the block behind prev in a list that has others: the rest
-- of the block stays, and no header outside of the list is written.
theorem take_spec (h : Heap) (blocks : List Block) (units prev : Nat) (listed : Listed h blocks) (positive : 0 < units)
    (member : prev ∈ blocks.map Block.addr) (room : units ≤ h.units (h.next prev)) (several : ∀ d, blocks ≠ [d]) :
    ∃ h' below c above, take h 0 units prev (h.next prev) = (c.addr, h') ∧ blocks = below ++ c :: above ∧ units * slobUnit ≤ c.size ∧
      Listed h' (below ++ remainder (units * slobUnit) c above) ∧ h'.units c.addr = units ∧
      (∀ a, ¬ Covers blocks a → h'.units a = h.units a) ∧ h'.bigblocks = h.bigblocks := by
  have onList := cycle_member h.next _ listed.cycle prev member
  obtain ⟨c, inside, at'⟩ := List.mem_map.mp onList
  obtain ⟨below, above, rfl⟩ := List.append_of_mem inside
  have others : below ++ above ≠ [] := by
    intro nothing
    simp only [List.append_eq_nil_iff] at nothing
    exact several c (by simp [nothing])
  obtain ⟨mid, shape⟩ := prev_unique h below above c listed others prev member at'.symm
  have cSize := listed.sized c inside
  have cPositive := listed.nonempty c inside
  rw [← at'] at room
  have cycle := listed.cycle
  rw [List.map_append, List.map_cons] at cycle
  have elsewhere : ∀ a ∈ mid ++ [prev], ∀ unit, c.Holds unit → a ≠ unit := by
    intro a there unit holds same
    rw [← shape, ← List.map_append] at there
    obtain ⟨d, member', rfl⟩ := List.mem_map.mp there
    subst same
    have dIn : d ∈ below ++ above := by
      simp only [List.mem_append] at member' ⊢
      tauto
    have old : d ∈ below ++ c :: above := by
      simp only [List.mem_append, List.mem_cons] at dIn ⊢
      tauto
    exact ascending_apart below above c listed.ascending d.addr holds ⟨d, dIn, block_addr_holds d (listed.nonempty d old)⟩
  have head := block_addr_holds c cPositive
  have prevC : prev ≠ c.addr := elsewhere prev (by simp) c.addr head
  have prevMid : prev ∉ mid := by
    have sorted := sorted_nodup _ (addrs_sorted _ listed.ascending listed.nonempty)
    rw [List.map_append, List.map_cons] at sorted
    have distinct : (mid ++ [prev]).Nodup := by
      rw [← shape]
      exact (List.perm_append_comm.nodup_iff).mpr (List.nodup_middle.mp sorted).of_cons
    exact fun there => (List.nodup_append.mp distinct).2.2 prev there prev (by simp) rfl
  have prevIn : prev ∈ (below ++ above).map Block.addr := by
    rw [List.map_append, List.mem_append, or_comm, ← List.mem_append, shape]
    simp
  have sizedOthers : ∀ d ∈ below ++ above, d.size = h.units d.addr * slobUnit ∧ d.addr ∈ mid ++ [prev] := by
    intro d member'
    refine ⟨listed.sized d (by simp only [List.mem_append, List.mem_cons] at member' ⊢; tauto), ?_⟩
    rw [← shape]
    simp only [List.mem_append] at member' ⊢
    rcases member' with low | high
    · exact .inr (List.mem_map_of_mem low)
    · exact .inl (List.mem_map_of_mem high)
  obtain ⟨ascending', nonempty', _, _⟩ := remainder_spec (units * slobUnit) below above c listed.ascending listed.nonempty (by
    rw [cSize]
    exact Nat.mul_le_mul_right _ room)
  have started : take h 0 units prev (h.next prev) = (c.addr, { unlink h units prev c.addr with slobfree := prev }) := by
    simp [take, fragmentHead, delta, ← at']
  rw [started]
  refine ⟨_, below, c, above, rfl, rfl, by rw [cSize]; exact Nat.mul_le_mul_right _ room, ?_⟩
  by_cases exact' : h.units c.addr = units
  · have written : unlink h units prev c.addr = h.setNext prev (h.next c.addr) := if_pos exact'
    have whole : remainder (units * slobUnit) c above = above := if_neg (by rw [cSize, exact']; omega)
    rw [whole] at ascending' nonempty' ⊢
    rw [written]
    refine ⟨⟨?_, prevIn, fun d member' => (sizedOthers d member').1, ascending', nonempty'⟩, exact', fun _ _ => rfl, rfl⟩
    rw [List.map_append]
    refine cycle_remove h.next _ _ _ mid prev c.addr shape cycle (by simp [Heap.setNext]) fun a there => ?_
    have other : a ≠ prev := fun same => prevMid (same ▸ there)
    simp [Heap.setNext, Function.update_of_ne other]
  · have fewer : units < h.units c.addr := by omega
    have scaled : units * slobUnit < c.size := by
      rw [cSize]
      exact Nat.mul_lt_mul_of_pos_right fewer (by decide)
    have whole : remainder (units * slobUnit) c above = ⟨c.addr + units * slobUnit, c.size - units * slobUnit⟩ :: above := if_pos scaled
    have grain : 0 < units * slobUnit := Nat.mul_pos positive (by decide)
    have restIn : c.Holds (c.addr + units * slobUnit) := ⟨by omega, by simp only [Block.stop]; omega⟩
    have prevRest : prev ≠ c.addr + units * slobUnit := elsewhere prev (by simp) _ restIn
    have restC : c.addr + units * slobUnit ≠ c.addr := by omega
    have written : unlink h units prev c.addr =
        (((h.setNext prev (c.addr + units * slobUnit)).setUnits (c.addr + units * slobUnit) (h.units c.addr - units)).setNext
          (c.addr + units * slobUnit) (h.next c.addr)).setUnits c.addr units := by
      simp [unlink, exact', Heap.setNext, Heap.setUnits, Function.update_of_ne prevC.symm]
    rw [whole] at ascending' nonempty' ⊢
    rw [written]
    refine ⟨⟨?_, ?_, fun d member' => ?_, ascending', nonempty'⟩, by simp [Heap.setNext, Heap.setUnits], fun a clear => ?_, rfl⟩
    · rw [List.map_append, List.map_cons]
      refine cycle_replace h.next _ _ _ mid prev c.addr (c.addr + units * slobUnit) shape cycle ?_ ?_ fun a there => ?_
      · simp [Heap.setNext, Heap.setUnits, Function.update_of_ne prevRest]
      · simp [Heap.setNext, Heap.setUnits]
      · have other : a ≠ prev := fun same => prevMid (same ▸ there)
        have notRest : a ≠ c.addr + units * slobUnit := elsewhere a (by simp [there]) _ restIn
        simp [Heap.setNext, Heap.setUnits, Function.update_of_ne other, Function.update_of_ne notRest]
    · simp only [List.map_append, List.map_cons, List.mem_append, List.mem_cons] at prevIn ⊢
      tauto
    · simp only [List.mem_append, List.mem_cons] at member'
      have old : ∀ d ∈ below ++ above, d.size = Function.update (Function.update h.units (c.addr + units * slobUnit) (h.units c.addr - units))
          c.addr units d.addr * slobUnit := by
        intro d there
        obtain ⟨size, place⟩ := sizedOthers d there
        rw [Function.update_of_ne (elsewhere d.addr place c.addr head), Function.update_of_ne (elsewhere d.addr place _ restIn)]
        exact size
      rcases member' with low | here | high
      · exact old d (by simp [low])
      · rw [here]
        simp only [Heap.setNext, Heap.setUnits, Function.update_of_ne restC, Function.update_self]
        rw [cSize, ← Nat.sub_mul]
      · exact old d (by simp [high])
    · have notC : a ≠ c.addr := fun same => clear ⟨c, by simp, same ▸ head⟩
      have notRest : a ≠ c.addr + units * slobUnit := fun same => clear ⟨c, by simp, same ▸ restIn⟩
      simp [Heap.setNext, Heap.setUnits, Function.update_of_ne notC, Function.update_of_ne notRest]

end Ucore.Slob
