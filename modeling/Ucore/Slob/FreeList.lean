import Ucore.Lib.Blocks
import Ucore.Lib.Cycle
import Ucore.Slob.Kmalloc

set_option autoImplicit false

namespace Ucore.Slob

open Ucore.Lib

-- The free list: circular, in the order of the addresses but for one wrap, with
-- slobfree at some block of it.
structure Listed (h : Heap) (blocks : List Block) : Prop where
  cycle : Cycle h.next (blocks.map Block.addr)
  head : h.slobfree ∈ blocks.map Block.addr
  sized : ∀ b ∈ blocks, b.size = h.units b.addr * slobUnit
  ascending : Ascending blocks
  nonempty : Nonempty blocks

theorem addrs_sorted (blocks : List Block) (ascending : Ascending blocks) (nonempty : Nonempty blocks) :
    (blocks.map Block.addr).Pairwise (· < ·) := by
  refine List.pairwise_map.mpr (ascending.imp_of_mem ?_)
  intro a b first _ before
  have size := nonempty a first
  simp only [Block.Before, Block.stop] at before
  omega

theorem sorted_nodup (addrs : List Nat) (sorted : addrs.Pairwise (· < ·)) : addrs.Nodup :=
  sorted.imp Nat.ne_of_lt

-- The successor of a node is the next one up, or the lowest when there is none.
theorem next_order (next : Nat → Nat) (addrs : List Nat) (sorted : addrs.Pairwise (· < ·)) (cycle : Cycle next addrs) (cur : Nat)
    (member : cur ∈ addrs) :
    (cur < next cur ∧ ∀ a ∈ addrs, a ≤ cur ∨ next cur ≤ a) ∨ ((∀ a ∈ addrs, a ≤ cur) ∧ ∀ a ∈ addrs, next cur ≤ a) := by
  obtain ⟨before, after, rfl⟩ := List.append_of_mem member
  have follows := cycle_next next before after cur cycle
  obtain ⟨_, upper, cross⟩ := List.pairwise_append.mp sorted
  obtain ⟨above, _⟩ := List.pairwise_cons.mp upper
  cases after with
  | cons e rest =>
      have same : e = next cur := by simpa using follows
      subst same
      refine .inl ⟨above _ (by simp), fun a inside => ?_⟩
      rcases List.mem_append.mp inside with low | high
      · exact .inl (Nat.le_of_lt (cross a low cur (by simp)))
      · rcases List.mem_cons.mp high with here | later
        · exact .inl (Nat.le_of_eq here)
        · rcases List.mem_cons.mp later with first | further
          · exact .inr (Nat.le_of_eq first.symm)
          · have order := (List.pairwise_cons.mp (List.pairwise_cons.mp upper).2).1 a further
            exact .inr (Nat.le_of_lt order)
  | nil =>
      refine .inr ⟨fun a inside => ?_, fun a inside => ?_⟩
      · rcases List.mem_append.mp inside with low | here
        · exact Nat.le_of_lt (cross a low cur (by simp))
        · exact Nat.le_of_eq (List.mem_singleton.mp here)
      · cases before with
        | nil =>
            have same : cur = next cur := by simpa using follows
            have here : a = cur := by simpa using inside
            omega
        | cons f rest =>
            have same : f = next cur := by simpa using follows
            subst same
            simp only [List.cons_append, List.pairwise_cons] at sorted
            simp only [List.cons_append, List.mem_cons] at inside
            rcases inside with here | later
            · exact Nat.le_of_eq here.symm
            · exact Nat.le_of_lt (sorted.1 a later)

-- The node before a place in the sorted list is the highest one below it, or the
-- highest of all when there is none.
theorem prev_order (below above mid : List Nat) (prev : Nat) (sorted : (below ++ above).Pairwise (· < ·)) (shape : above ++ below = mid ++ [prev]) :
    (prev ∈ below ∧ ∀ a ∈ below, a ≤ prev) ∨ (below = [] ∧ prev ∈ above ∧ ∀ a ∈ above, a ≤ prev) := by
  have highest : ∀ part : List Nat, ∀ front, part = front ++ [prev] → part.Pairwise (· < ·) → ∀ a ∈ part, a ≤ prev := by
    intro part front whole order a inside
    rw [whole] at order inside
    rcases List.mem_append.mp inside with low | here
    · exact Nat.le_of_lt ((List.pairwise_append.mp order).2.2 a low prev (by simp))
    · exact Nat.le_of_eq (List.mem_singleton.mp here)
  obtain ⟨lower, upper, _⟩ := List.pairwise_append.mp sorted
  rcases List.eq_nil_or_concat below with rfl | ⟨front, last, rfl⟩
  · have whole : above = mid ++ [prev] := by simpa using shape
    exact .inr ⟨rfl, by simp [whole], highest above mid whole upper⟩
  · have flat : above ++ front ++ [last] = mid ++ [prev] := by simpa [List.append_assoc] using shape
    obtain ⟨_, same⟩ := List.append_inj' flat rfl
    obtain rfl : last = prev := by simpa using same
    exact .inl ⟨by simp, highest _ front (by simp) lower⟩

-- The search of slob_free stops at the node before the place of b and at no other.
theorem reinsert_iff (h : Heap) (b : Nat) (below above mid : List Nat) (prev : Nat) (sorted : (below ++ above).Pairwise (· < ·))
    (under : ∀ a ∈ below, a < b) (exceeds : ∀ a ∈ above, b < a) (cycle : Cycle h.next (below ++ above)) (shape : above ++ below = mid ++ [prev])
    (cur : Nat) (member : cur ∈ below ++ above) : Reinsert h b cur ↔ cur = prev := by
  have successor := cycle_member h.next (below ++ above) cycle cur member
  have order := next_order h.next (below ++ above) sorted cycle cur member
  have place := prev_order below above mid prev sorted shape
  simp only [List.mem_append] at member successor order
  unfold Reinsert
  constructor
  · intro stops
    rcases place with ⟨inBelow, highest⟩ | ⟨rfl, inAbove, highest⟩
    · have low := under prev inBelow
      have curLow : cur ∈ below := by
        rcases member with low' | high
        · exact low'
        · have up := exceeds cur high
          rcases order with ⟨_, gap⟩ | ⟨top, bottom⟩
          · omega
          · have bound := bottom prev (.inl inBelow)
            omega
      have bound := highest cur curLow
      rcases order with ⟨_, gap⟩ | ⟨top, bottom⟩
      · have split := gap prev (.inl inBelow)
        omega
      · have limit := top prev (.inl inBelow)
        omega
    · have curHigh : cur ∈ above := by simpa using member
      have up := exceeds cur curHigh
      have bound := highest cur curHigh
      rcases order with ⟨_, gap⟩ | ⟨top, bottom⟩
      · omega
      · have limit := top prev (.inr inAbove)
        omega
  · rintro rfl
    rcases place with ⟨inBelow, highest⟩ | ⟨rfl, inAbove, highest⟩
    · have low := under cur inBelow
      rcases order with ⟨further, gap⟩ | ⟨top, bottom⟩
      · rcases successor with low' | high
        · have bound := highest _ low'
          omega
        · exact .inl ⟨low, exceeds _ high⟩
      · exact .inr ⟨bottom cur (.inl inBelow), .inl low⟩
    · rcases order with ⟨further, gap⟩ | ⟨top, bottom⟩
      · have high : h.next cur ∈ above := by simpa using successor
        have bound := highest _ high
        omega
      · have high : h.next cur ∈ above := by simpa using successor
        exact .inr ⟨bottom cur (.inr inAbove), .inr (exceeds _ high)⟩

-- A search along the cycle that stops at one node only gets there.
theorem reinsertion_point_spec (h : Heap) (b target home cur : Nat) (rest : List Nat) (fuel : Nat)
    (path : (cur :: rest).map h.next = rest ++ [home]) (member : target ∈ cur :: rest)
    (only : ∀ c ∈ cur :: rest, Reinsert h b c ↔ c = target) (enough : rest.length < fuel) : reinsertionPoint h b cur fuel = .ok target := by
  induction rest generalizing cur fuel with
  | nil =>
      cases fuel with
      | zero => simp at enough
      | succ fuel =>
          obtain rfl : target = cur := by simpa using member
          have stops := (only target (by simp)).mpr rfl
          rw [reinsertionPoint, if_pos stops]
  | cons next rest ih =>
      cases fuel with
      | zero => simp at enough
      | succ fuel =>
          by_cases here : cur = target
          · have stops := (only cur (by simp)).mpr here
            rw [reinsertionPoint, if_pos stops, here]
          · have goesOn : ¬ Reinsert h b cur := fun stops => here ((only cur (by simp)).mp stops)
            rw [reinsertionPoint, if_neg goesOn]
            simp only [List.map_cons, List.cons_append, List.cons.injEq] at path
            rw [path.1]
            refine ih next fuel (by simpa using path.2) ?_ (fun c inside => only c (by simp [inside])) (by simpa using enough)
            rcases List.mem_cons.mp member with same | later
            · exact absurd same.symm here
            · exact later

-- The scan of slob_alloc goes round the list once.
theorem scan_spec (h : Heap) (units : Nat) (prev : Nat) (rest : List Nat) (fuel : Nat) (path : (prev :: rest).map h.next = rest ++ [h.slobfree])
    (away : h.slobfree ∉ rest) (enough : rest.length < fuel) :
    (scan h 0 units prev (h.next prev) fuel = .ok none ∧ ∀ cur ∈ rest ++ [h.slobfree], h.units cur < units) ∨
      ∃ p ∈ prev :: rest, scan h 0 units prev (h.next prev) fuel = .ok (some (p, h.next p)) ∧ units ≤ h.units (h.next p) := by
  induction rest generalizing prev fuel with
  | nil =>
      cases fuel with
      | zero => simp at enough
      | succ fuel =>
          have last : h.next prev = h.slobfree := by simpa using path
          by_cases fits : units ≤ h.units (h.next prev)
          · exact .inr ⟨prev, by simp, by simp [scan, delta, fits], fits⟩
          · refine .inl ⟨by simp [scan, delta, last, last ▸ fits], ?_⟩
            simp only [List.nil_append, List.mem_singleton, forall_eq]
            rw [← last]
            omega
  | cons cur rest ih =>
      cases fuel with
      | zero => simp at enough
      | succ fuel =>
          simp only [List.map_cons, List.cons_append, List.cons.injEq] at path
          have onward : cur ≠ h.slobfree := fun same => away (by simp [same])
          by_cases fits : units ≤ h.units (h.next prev)
          · exact .inr ⟨prev, by simp, by simp [scan, delta, fits], fits⟩
          · have step : scan h 0 units prev (h.next prev) (fuel + 1) = scan h 0 units cur (h.next cur) fuel := by
              rw [path.1] at fits ⊢
              simp [scan, delta, fits, onward]
            rw [step]
            rcases ih cur fuel (by simpa using path.2) (fun inside => away (by simp [inside])) (by simpa using enough) with
              ⟨result, small⟩ | ⟨p, inside, result, large⟩
            · refine .inl ⟨result, fun c member => ?_⟩
              rcases List.mem_cons.mp member with here | later
              · rw [here, ← path.1]
                omega
              · exact small c later
            · exact .inr ⟨p, by simp [List.mem_cons.mp inside], result, large⟩

end Ucore.Slob
