import Mathlib.Data.List.Rotate
import Ucore.Lib.Sizes

set_option autoImplicit false

namespace Ucore.Lib

-- A singly linked circular list: the successors of its nodes are the nodes one
-- place on. No node is its first one, so a cycle may be turned.
section Cycles

variable {α : Type} (next other : α → α)

def Cycle (nodes : List α) : Prop := nodes.map next = nodes.rotate 1

theorem cycle_cons (node : α) (rest : List α) : Cycle next (node :: rest) ↔ (node :: rest).map next = rest ++ [node] := by
  rw [Cycle, List.rotate_cons_succ, List.rotate_zero]

theorem cycle_turn (left right : List α) (cycle : Cycle next (left ++ right)) : Cycle next (right ++ left) := by
  have turned : right ++ left = (left ++ right).rotate left.length := (List.rotate_append_length_eq left right).symm
  rw [turned, Cycle, List.map_rotate, cycle, List.rotate_rotate, List.rotate_rotate, Nat.add_comm]

-- The successor of a node is the first of the nodes behind it, all the way round.
theorem cycle_next (before after : List α) (node : α) (cycle : Cycle next (before ++ node :: after)) :
    (after ++ before ++ [node]).head? = some (next node) := by
  have turned := cycle_turn next before (node :: after) cycle
  rw [List.cons_append, cycle_cons] at turned
  rw [← turned]
  rfl

theorem cycle_injective (nodes : List α) (nodup : nodes.Nodup) (cycle : Cycle next nodes) (left right : α) (first : left ∈ nodes)
    (second : right ∈ nodes) (same : next left = next right) : left = right := by
  have distinct : (nodes.map next).Nodup := by
    rw [cycle]
    exact List.nodup_rotate.mpr nodup
  exact List.inj_on_of_nodup_map distinct first second same

theorem cycle_member (nodes : List α) (cycle : Cycle next nodes) (node : α) (member : node ∈ nodes) : next node ∈ nodes := by
  have inside : next node ∈ nodes.map next := List.mem_map_of_mem member
  rw [cycle] at inside
  exact List.mem_rotate.mp inside

-- The cycle as seen from the node before a place in the list.
theorem cycle_from (left right mid : List α) (last : α) (shape : right ++ left = mid ++ [last]) :
    Cycle next (left ++ right) ↔ Cycle next (last :: mid) := by
  constructor
  · intro cycle
    have turned := cycle_turn next left right cycle
    rw [shape] at turned
    exact cycle_turn next mid [last] turned
  · intro cycle
    have turned := cycle_turn next [last] mid cycle
    rw [← shape] at turned
    exact cycle_turn next right left turned

theorem cycle_from_node (left right mid : List α) (last node : α) (shape : right ++ left = mid ++ [last]) :
    Cycle next (left ++ node :: right) ↔ Cycle next (last :: node :: mid) :=
  cycle_from next left (node :: right) (node :: mid) last (by rw [List.cons_append, shape, List.cons_append])

theorem cycle_insert (left right mid : List α) (last node : α) (shape : right ++ left = mid ++ [last]) (cycle : Cycle next (left ++ right))
    (atLast : other last = node) (atNode : other node = next last) (same : ∀ a ∈ mid, other a = next a) : Cycle other (left ++ node :: right) := by
  rw [cycle_from next left right mid last shape, cycle_cons] at cycle
  rw [cycle_from_node other left right mid last node shape, cycle_cons]
  simp only [List.map_cons, List.cons_append, atLast, atNode, List.map_congr_left same] at cycle ⊢
  rw [cycle]

theorem cycle_remove (left right mid : List α) (last node : α) (shape : right ++ left = mid ++ [last]) (cycle : Cycle next (left ++ node :: right))
    (atLast : other last = next node) (same : ∀ a ∈ mid, other a = next a) : Cycle other (left ++ right) := by
  rw [cycle_from_node next left right mid last node shape, cycle_cons] at cycle
  rw [cycle_from other left right mid last shape, cycle_cons]
  simp only [List.map_cons, List.cons_append, atLast, List.map_congr_left same, List.cons.injEq] at cycle ⊢
  exact cycle.2

theorem cycle_replace (left right mid : List α) (last node fresh : α) (shape : right ++ left = mid ++ [last])
    (cycle : Cycle next (left ++ node :: right)) (atLast : other last = fresh) (atFresh : other fresh = next node)
    (same : ∀ a ∈ mid, other a = next a) : Cycle other (left ++ fresh :: right) := by
  rw [cycle_from_node next left right mid last node shape, cycle_cons] at cycle
  rw [cycle_from_node other left right mid last fresh shape, cycle_cons]
  simp only [List.map_cons, List.cons_append, atLast, atFresh, List.map_congr_left same, List.cons.injEq] at cycle ⊢
  exact ⟨trivial, cycle.2⟩

theorem cycle_congr (nodes : List α) (cycle : Cycle next nodes) (same : ∀ a ∈ nodes, other a = next a) : Cycle other nodes := by
  rw [Cycle, List.map_congr_left same]
  exact cycle

end Cycles

end Ucore.Lib
