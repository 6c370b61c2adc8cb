import Ucore.Slob.FreeList

set_option autoImplicit false

namespace Ucore.Slob

open Ucore.Lib

theorem ascending_addrs (below above : List Block) (b : Block) (ascending : Ascending (below ++ b :: above)) (nonempty : Nonempty (below ++ b :: above)) :
    (∀ a ∈ below.map Block.addr, a < b.addr) ∧ ∀ a ∈ above.map Block.addr, b.addr < a := by
  have sorted := addrs_sorted _ ascending nonempty
  simp only [List.map_append, List.map_cons] at sorted
  obtain ⟨_, upper, cross⟩ := List.pairwise_append.mp sorted
  exact ⟨fun a inside => cross a inside b.addr (by simp), (List.pairwise_cons.mp upper).1⟩

section Joins

variable (h : Heap) (below above : List Block) (b : Block) (prev : Nat)

-- The node before the place of b is no part of b, and its successor is the first
-- block above or, round the end, the first one below.
theorem place_prev (mid : List Nat) (cycle : Cycle h.next ((below ++ above).map Block.addr))
    (shape : above.map Block.addr ++ below.map Block.addr = mid ++ [prev]) (ascending : Ascending (below ++ b :: above))
    (nonempty : Nonempty (below ++ b :: above)) :
    prev ≠ b.addr ∧ b.addr ∉ mid ∧ prev ∉ mid ∧ (mid ++ [prev]).head? = some (h.next prev) := by
  have order := ascending_addrs below above b ascending nonempty
  have sorted := addrs_sorted (below ++ b :: above) ascending nonempty
  have distinct : (mid ++ [prev]).Nodup := by
    rw [← shape]
    have nodup := sorted_nodup _ sorted
    simp only [List.map_append, List.map_cons] at nodup
    exact (List.perm_append_comm.nodup_iff).mpr (List.nodup_middle.mp nodup).of_cons
  have other : ∀ a ∈ mid ++ [prev], a ≠ b.addr := by
    intro a inside same
    rw [← shape] at inside
    rcases List.mem_append.mp inside with high | low
    · have bound := order.2 a high
      omega
    · have bound := order.1 a low
      omega
  refine ⟨other prev (by simp), fun inside => other b.addr (by simp [inside]) rfl, fun inside => ?_, ?_⟩
  · exact (List.nodup_append.mp distinct).2.2 prev inside prev (by simp) rfl
  · rw [List.map_append, cycle_from h.next _ _ mid prev shape, cycle_cons] at cycle
    rw [← cycle]
    rfl

-- b takes in the block that begins where it ends, and gets the successor it will
-- have once prev points to it.
theorem join_next_spec (mid : List Nat) (cycle : Cycle h.next ((below ++ above).map Block.addr))
    (shape : above.map Block.addr ++ below.map Block.addr = mid ++ [prev]) (sized : ∀ c ∈ below ++ above, c.size = h.units c.addr * slobUnit)
    (own : b.size = h.units b.addr * slobUnit) (ascending : Ascending (below ++ b :: above)) (nonempty : Nonempty (below ++ b :: above))
    (lone : ∀ d, below ++ above = [d] → b.stop ≠ d.addr) :
    ∃ c rest mid', joinAfter b above = c :: rest ∧ c.addr = b.addr ∧ (∀ d ∈ rest, d ∈ above) ∧
      rest.map Block.addr ++ below.map Block.addr = mid' ++ [prev] ∧ c.size = (joinNext h b.addr prev).units b.addr * slobUnit ∧
      Cycle (Function.update (joinNext h b.addr prev).next prev b.addr) ((below ++ c :: rest).map Block.addr) ∧
      (∀ a, a ≠ b.addr → (joinNext h b.addr prev).units a = h.units a) ∧ (joinNext h b.addr prev).bigblocks = h.bigblocks := by
  obtain ⟨notB, freshMid, freshPrev, first⟩ := place_prev h below above b prev mid cycle shape ascending nonempty
  have order := ascending_addrs below above b ascending nonempty
  have stop : b.addr + h.units b.addr * slobUnit = b.stop := by rw [Block.stop, own]
  by_cases joins : ∃ d rest, above = d :: rest ∧ b.stop = d.addr
  · obtain ⟨d, rest, rfl, meet⟩ := joins
    have atD : h.next prev = d.addr := by
      rw [← shape] at first
      simpa using first.symm
    obtain ⟨mid', rfl⟩ : ∃ mid', mid = d.addr :: mid' := by
      cases mid with
      | nil =>
          have single : rest = [] ∧ below = [] := by
            simp only [List.map_cons, List.cons_append, List.nil_append, List.cons.injEq, List.append_eq_nil_iff, List.map_eq_nil_iff] at shape
            exact shape.2
          exact absurd meet (lone d (by simp [single]))
      | cons e mid' =>
          simp only [List.map_cons, List.cons_append, List.cons.injEq] at shape
          exact ⟨mid', by rw [shape.1]⟩
    have shape' : rest.map Block.addr ++ below.map Block.addr = mid' ++ [prev] := by simpa using shape
    have dApart : d.addr ≠ b.addr := by
      have bound := order.2 d.addr (by simp)
      omega
    have written : joinNext h b.addr prev = (h.setUnits b.addr (h.units b.addr + h.units d.addr)).setNext b.addr (h.next d.addr) := by
      simp [joinNext, stop, atD, meet, Heap.setUnits]
    refine ⟨⟨b.addr, b.size + d.size⟩, rest, mid', if_pos meet, rfl, fun e inside => by simp [inside], shape', ?_, ?_, fun a away => ?_, ?_⟩
    · rw [written, own, sized d (by simp), ← Nat.add_mul]
      simp [Heap.setNext, Heap.setUnits]
    · rw [written, List.map_append, List.map_cons]
      rw [List.map_append, List.map_cons] at cycle
      refine cycle_replace h.next _ (below.map Block.addr) (rest.map Block.addr) mid' prev d.addr b.addr shape' cycle ?_ ?_ fun a inside => ?_
      · simp
      · simp [Function.update_of_ne notB.symm, Heap.setNext, Heap.setUnits]
      · have notPrev : a ≠ prev := fun same => freshPrev (by simp [← same, inside])
        have notB' : a ≠ b.addr := fun same => freshMid (by simp [← same, inside])
        simp [Function.update_of_ne notPrev, Heap.setNext, Heap.setUnits, Function.update_of_ne notB']
    · rw [written]
      simp [Heap.setNext, Heap.setUnits, Function.update_of_ne away]
    · rw [written]
      rfl
  · have apart : b.addr + h.units b.addr * slobUnit ≠ h.next prev := by
      rw [stop]
      intro meet
      cases above with
      | cons d rest =>
          rw [← shape] at first
          exact joins ⟨d, rest, rfl, meet.trans (by simpa using first.symm)⟩
      | nil =>
          have inside : h.next prev ∈ below.map Block.addr := by
            have member : h.next prev ∈ mid ++ [prev] := List.mem_of_head? first
            rw [← shape] at member
            simpa using member
          have bound := order.1 _ inside
          simp only [Block.stop] at meet
          omega
    have kept : joinAfter b above = b :: above := by
      cases above with
      | nil => rfl
      | cons d rest => exact if_neg fun meet => joins ⟨d, rest, rfl, meet⟩
    have written : joinNext h b.addr prev = h.setNext b.addr (h.next prev) := if_neg apart
    refine ⟨b, above, mid, kept, rfl, fun d inside => inside, shape, ?_, ?_, fun a _ => ?_, ?_⟩
    · rw [written]
      exact own
    · rw [written, List.map_append, List.map_cons]
      rw [List.map_append] at cycle
      refine cycle_insert h.next _ (below.map Block.addr) (above.map Block.addr) mid prev b.addr shape cycle ?_ ?_ fun a inside => ?_
      · simp
      · simp [Function.update_of_ne notB.symm, Heap.setNext]
      · have notPrev : a ≠ prev := fun same => freshPrev (same ▸ inside)
        have notB' : a ≠ b.addr := fun same => freshMid (same ▸ inside)
        simp [Function.update_of_ne notPrev, Heap.setNext, Function.update_of_ne notB']
    · rw [written]
      rfl
    · rw [written]
      rfl

-- prev takes in the new block where it ends there, and else points to it.
theorem join_prev_spec (rest : List Block) (c : Block) (mid : List Nat) (joined : joinAfter b above = c :: rest) (same : c.addr = b.addr)
    (cycle : Cycle (Function.update h.next prev b.addr) ((below ++ c :: rest).map Block.addr))
    (shape : rest.map Block.addr ++ below.map Block.addr = mid ++ [prev]) (sized : ∀ d ∈ below ++ rest, d.size = h.units d.addr * slobUnit)
    (own : c.size = h.units b.addr * slobUnit) (ascending : Ascending (below ++ c :: rest)) (nonempty : Nonempty (below ++ c :: rest)) :
    Cycle (joinPrev h b.addr prev).next ((joinBetween below b above).map Block.addr) ∧
      prev ∈ (joinBetween below b above).map Block.addr ∧
      (∀ d ∈ joinBetween below b above, d.size = (joinPrev h b.addr prev).units d.addr * slobUnit) ∧
      (∀ a, a ≠ prev → (joinPrev h b.addr prev).units a = h.units a) ∧ (joinPrev h b.addr prev).bigblocks = h.bigblocks := by
  have order := ascending_addrs below rest c ascending nonempty
  have sorted := sorted_nodup _ (addrs_sorted (below ++ c :: rest) ascending nonempty)
  rw [same] at order
  have appended : ∀ kept : List Block, kept = below ++ c :: rest → prev + h.units prev * slobUnit ≠ b.addr →
      Cycle (joinPrev h b.addr prev).next (kept.map Block.addr) ∧ prev ∈ kept.map Block.addr ∧
        (∀ d ∈ kept, d.size = (joinPrev h b.addr prev).units d.addr * slobUnit) ∧
        (∀ a, a ≠ prev → (joinPrev h b.addr prev).units a = h.units a) ∧ (joinPrev h b.addr prev).bigblocks = h.bigblocks := by
    rintro kept rfl apart
    have written : joinPrev h b.addr prev = h.setNext prev b.addr := if_neg apart
    rw [written]
    refine ⟨cycle, ?_, fun d member => ?_, fun _ _ => rfl, rfl⟩
    · have inside : prev ∈ rest.map Block.addr ++ below.map Block.addr := by simp [shape]
      simp only [List.map_append, List.map_cons, List.mem_append, List.mem_cons] at inside ⊢
      tauto
    · simp only [List.mem_append, List.mem_cons] at member
      rcases member with low | here | high
      · exact sized d (by simp [low])
      · rw [here, same]
        exact own
      · exact sized d (by simp [high])
  rcases List.eq_nil_or_concat' below with rfl | ⟨front, a, rfl⟩
  · have inRest : prev ∈ rest.map Block.addr := by
      have inside : prev ∈ rest.map Block.addr ++ [] := by
        rw [show rest.map Block.addr ++ [] = mid ++ [prev] from shape]
        simp
      simpa using inside
    have above' := order.2 prev inRest
    exact appended _ (by simp [joinBetween, joined]) (by omega)
  · have last : a.addr = prev := by
      have flat : rest.map Block.addr ++ front.map Block.addr ++ [a.addr] = mid ++ [prev] := by simpa [List.append_assoc] using shape
      simpa using (List.append_inj' flat rfl).2
    subst last
    have aSize : a.size = h.units a.addr * slobUnit := sized a (by simp)
    have stop : a.addr + h.units a.addr * slobUnit = a.stop := by rw [Block.stop, aSize]
    by_cases meet : a.stop = b.addr
    · have whole : joinBetween (front ++ [a]) b above = front ++ ⟨a.addr, a.size + c.size⟩ :: rest := by
        simp only [joinBetween, List.getLast?_concat, List.dropLast_concat, if_pos meet, join_after_grow a b c above rest meet joined]
      have written : joinPrev h b.addr a.addr = (h.setUnits a.addr (h.units a.addr + h.units b.addr)).setNext a.addr (h.next b.addr) := by
        simp [joinPrev, stop, meet, Heap.setUnits]
      have low := order.1 a.addr (by simp)
      have away : ∀ d ∈ front ++ rest, d.addr ≠ a.addr := by
        intro d member equal
        have flat : (front ++ [a] ++ c :: rest).map Block.addr = front.map Block.addr ++ a.addr :: (c :: rest).map Block.addr := by simp
        rw [flat] at sorted
        refine (List.nodup_cons.mp (List.nodup_middle.mp sorted)).1 ?_
        rw [← equal]
        simp only [List.mem_append, List.map_cons, List.mem_cons] at member ⊢
        rcases member with inFront | inRest
        · exact .inl (List.mem_map_of_mem inFront)
        · exact .inr (.inr (List.mem_map_of_mem inRest))
      rw [whole, written]
      refine ⟨?_, by simp, fun d member => ?_, fun x other => by simp [Heap.setNext, Heap.setUnits, Function.update_of_ne other], rfl⟩
      · rw [List.map_append, List.map_cons] at cycle
        have notMid : ∀ x ∈ mid, x ≠ a.addr := by
          intro x inside equal
          have flat : rest.map Block.addr ++ front.map Block.addr ++ [a.addr] = mid ++ [a.addr] := by simpa [List.append_assoc] using shape
          have middle : rest.map Block.addr ++ front.map Block.addr = mid := (List.append_inj' flat rfl).1
          rw [← middle, ← List.map_append] at inside
          obtain ⟨d, member, rfl⟩ := List.mem_map.mp inside
          exact away d (by simp only [List.mem_append] at member ⊢; tauto) equal
        have removed := cycle_remove (Function.update h.next a.addr b.addr) (Function.update h.next a.addr (h.next b.addr))
          ((front ++ [a]).map Block.addr) (rest.map Block.addr) mid a.addr c.addr shape cycle
          (by rw [same]; simp [Function.update_of_ne (Nat.ne_of_gt low)]) fun x inside => by
            simp [Function.update_of_ne (notMid x inside)]
        simpa [Heap.setNext, Heap.setUnits] using removed
      · simp only [List.mem_append, List.mem_cons] at member
        rcases member with inFront | here | inRest
        · have other := away d (by simp [inFront])
          simp only [Heap.setNext, Heap.setUnits, Function.update_of_ne other]
          exact sized d (by simp [inFront])
        · rw [here, aSize, own, ← Nat.add_mul]
          simp [Heap.setNext, Heap.setUnits]
        · have other := away d (by simp [inRest])
          simp only [Heap.setNext, Heap.setUnits, Function.update_of_ne other]
          exact sized d (by simp [inRest])
    · have whole : joinBetween (front ++ [a]) b above = front ++ [a] ++ c :: rest := by
        simp only [joinBetween, List.getLast?_concat, if_neg meet, joined]
      exact appended _ whole (by rw [stop]; exact meet)

end Joins

-- slob_free puts a block that shares no byte with the list into its place, and joins
-- it with the blocks that touch it. A list of one block right behind it would be
-- broken.
theorem slob_free_spec (bound : Nat) (h : Heap) (blocks : List Block) (b : Block) (size : Nat) (listed : Listed h blocks)
    (positive : 0 < b.size) (own : b.size = (if size ≠ 0 then slobUnits size else h.units b.addr) * slobUnit)
    (apart : ∀ unit, b.Holds unit → ¬ Covers blocks unit) (lone : ∀ d, blocks = [d] → b.stop ≠ d.addr) (enough : blocks.length ≤ bound) :
    ∃ h' below above, slobFree bound h b.addr size = .ok h' ∧ blocks = below ++ above ∧ Ascending (below ++ b :: above) ∧
      Nonempty (below ++ b :: above) ∧ Listed h' (joinBetween below b above) ∧
      (∀ a, a ≠ b.addr → a ∉ blocks.map Block.addr → h'.units a = h.units a) ∧ h'.bigblocks = h.bigblocks := by
  obtain ⟨below, above, rfl, ascending⟩ := ascending_place blocks b listed.ascending listed.nonempty positive apart
  have nonempty : Nonempty (below ++ b :: above) := by
    intro c member
    simp only [List.mem_append, List.mem_cons] at member
    rcases member with low | here | high
    · exact listed.nonempty c (by simp [low])
    · exact here ▸ positive
    · exact listed.nonempty c (by simp [high])
  have order := ascending_addrs below above b ascending nonempty
  -- The units of b are written first; they are no others.
  generalize started : (if size ≠ 0 then h.setUnits b.addr (slobUnits size) else h) = first
  have firstNext : first.next = h.next ∧ first.slobfree = h.slobfree ∧ first.bigblocks = h.bigblocks := by
    rw [← started]
    split <;> exact ⟨rfl, rfl, rfl⟩
  have firstUnits : b.size = first.units b.addr * slobUnit ∧ ∀ a, a ≠ b.addr → first.units a = h.units a := by
    rw [← started]
    by_cases given : size ≠ 0
    · rw [if_pos given] at own ⊢
      exact ⟨by simp [Heap.setUnits, own], fun a other => by simp [Heap.setUnits, Function.update_of_ne other]⟩
    · rw [if_neg given] at own ⊢
      exact ⟨own, fun _ _ => rfl⟩
  have member : ∀ c ∈ below ++ above, c.addr ≠ b.addr := by
    intro c inside
    rcases List.mem_append.mp inside with low | high
    · exact Nat.ne_of_lt (order.1 c.addr (List.mem_map_of_mem low))
    · exact Nat.ne_of_gt (order.2 c.addr (List.mem_map_of_mem high))
  have sized : ∀ c ∈ below ++ above, c.size = first.units c.addr * slobUnit := fun c inside => by
    rw [firstUnits.2 c.addr (member c inside)]
    exact listed.sized c inside
  have cycle : Cycle first.next ((below ++ above).map Block.addr) := firstNext.1 ▸ listed.cycle
  obtain ⟨mid, prev, shape⟩ : ∃ mid prev, above.map Block.addr ++ below.map Block.addr = mid ++ [prev] := by
    rcases List.eq_nil_or_concat' (above.map Block.addr ++ below.map Block.addr) with nothing | ⟨mid, prev, whole⟩
    · have head := listed.head
      simp only [List.append_eq_nil_iff, List.map_eq_nil_iff] at nothing
      simp [nothing] at head
    · exact ⟨mid, prev, whole⟩
  have search : reinsertionPoint first b.addr first.slobfree bound = .ok prev := by
    have head := listed.head
    rw [← firstNext.2.1] at head
    obtain ⟨left, right, split⟩ := List.append_of_mem head
    have turned := cycle
    rw [split] at turned
    have path := (cycle_cons first.next _ _).mp (cycle_turn first.next left (first.slobfree :: right) turned)
    have places : ∀ c, c ∈ first.slobfree :: (right ++ left) ↔ c ∈ below.map Block.addr ++ above.map Block.addr := by
      intro c
      rw [← List.map_append, split]
      simp only [List.mem_cons, List.mem_append]
      tauto
    have sorted := addrs_sorted (below ++ above) listed.ascending listed.nonempty
    rw [List.map_append] at sorted cycle
    refine reinsertion_point_spec first b.addr prev first.slobfree first.slobfree (right ++ left) bound path ?_ (fun c inside => ?_) ?_
    · rw [places, List.mem_append, or_comm, ← List.mem_append, shape]
      simp
    · exact reinsert_iff first b.addr _ _ mid prev sorted order.1 order.2 cycle shape c ((places c).mp inside)
    · have count := congrArg List.length split
      simp only [List.length_map, List.length_append, List.length_cons] at count enough ⊢
      omega
  obtain ⟨c, rest, mid', joined, same, part, shape', own', cycle', units', bigs'⟩ :=
    join_next_spec first below above b prev mid cycle shape sized firstUnits.1 ascending nonempty lone
  obtain ⟨ascending', nonempty', _, _⟩ := join_after_spec below above b ascending nonempty
  rw [joined] at ascending' nonempty'
  obtain ⟨cycle'', head'', sized'', units'', bigs''⟩ := join_prev_spec (joinNext first b.addr prev) below above b prev rest c mid' joined same cycle'
    shape' (fun d inside => by
      have old : d ∈ below ++ above := by
        rcases List.mem_append.mp inside with low | high
        · simp [low]
        · simp [part d high]
      rw [units' d.addr (member d old)]
      exact sized d old) own' ascending' nonempty'
  obtain ⟨finalAscending, finalNonempty, _, _⟩ := join_between_spec below above b ascending nonempty
  have prevIn : prev ∈ (below ++ above).map Block.addr := by
    rw [List.map_append, List.mem_append, or_comm, ← List.mem_append, shape]
    simp
  refine ⟨{ joinPrev (joinNext first b.addr prev) b.addr prev with slobfree := prev }, below, above, ?_, rfl, ascending, nonempty,
    ⟨cycle'', head'', sized'', finalAscending, finalNonempty⟩, fun a notB notListed => ?_, ?_⟩
  · simp only [slobFree]
    rw [started, search]
    rfl
  · have notPrev : a ≠ prev := fun equal => notListed (equal ▸ prevIn)
    calc (joinPrev (joinNext first b.addr prev) b.addr prev).units a
      _ = (joinNext first b.addr prev).units a := units'' a notPrev
      _ = first.units a := units' a notB
      _ = h.units a := firstUnits.2 a notB
  · calc (joinPrev (joinNext first b.addr prev) b.addr prev).bigblocks
      _ = (joinNext first b.addr prev).bigblocks := bigs''
      _ = first.bigblocks := bigs'
      _ = h.bigblocks := firstNext.2.2

end Ucore.Slob
