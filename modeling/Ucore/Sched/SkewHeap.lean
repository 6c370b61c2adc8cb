import Ucore.Lib.BinTree

set_option autoImplicit false

namespace Ucore.Sched

open Ucore.Lib

variable {α : Type}

-- The body of skew_heap_merge once its first argument is the node a. The
-- source recurses on a->right with b, or on a with b->right: mergeRight is the
-- first of the two calls, the recursion of this definition the second.
def skewHeapMergeNode (comp : α → α → Int) (aLeft : BinTree α) (a : α) (aRight : BinTree α)
    (mergeRight : BinTree α → BinTree α) : BinTree α → BinTree α
  | .nil => .node aLeft a aRight
  | .node bLeft b bRight =>
      if comp a b = -1 then .node (mergeRight (.node bLeft b bRight)) a aLeft
      else .node (skewHeapMergeNode comp aLeft a aRight mergeRight bRight) b bLeft

def skewHeapMerge (comp : α → α → Int) : BinTree α → BinTree α → BinTree α
  | .nil => fun b => b
  | .node left root right => skewHeapMergeNode comp left root right (skewHeapMerge comp right)

-- A fresh node has no children: skew_heap_init.
def skewHeapInsert (comp : α → α → Int) (heap : BinTree α) (item : α) : BinTree α :=
  skewHeapMerge comp heap (.node .nil item .nil)

-- The source finds the place of the node through its parent pointer. Labels
-- stand for addresses, so the node with label item is the one to replace.
def skewHeapRemove [DecidableEq α] (comp : α → α → Int) (item : α) : BinTree α → BinTree α
  | .nil => .nil
  | .node left root right =>
      if root = item then skewHeapMerge comp left right
      else .node (skewHeapRemove comp item left) root (skewHeapRemove comp item right)

theorem skew_heap_merge_nodes (comp : α → α → Int) (aLeft aRight bLeft bRight : BinTree α) (a b : α) :
    skewHeapMerge comp (.node aLeft a aRight) (.node bLeft b bRight) =
      if comp a b = -1 then .node (skewHeapMerge comp aRight (.node bLeft b bRight)) a aLeft
      else .node (skewHeapMerge comp (.node aLeft a aRight) bRight) b bLeft := by
  rfl

theorem skew_heap_merge_perm (comp : α → α → Int) (left right : BinTree α) :
    (skewHeapMerge comp left right).toList.Perm (left.toList ++ right.toList) := by
  induction left generalizing right with
  | nil => exact List.Perm.refl _
  | node aLeft a aRight _ ihRight =>
      induction right with
      | nil => simp [skewHeapMerge, skewHeapMergeNode, BinTree.toList]
      | node bLeft b bRight _ ihB =>
          rw [skew_heap_merge_nodes]
          split
          · have inner := ihRight (.node bLeft b bRight)
            simp only [BinTree.toList, List.cons_append] at inner ⊢
            refine List.Perm.cons a ?_
            refine (List.Perm.append_right aLeft.toList inner).trans ?_
            rw [List.append_assoc aLeft.toList]
            exact List.perm_append_comm
          · simp only [BinTree.toList, List.cons_append] at ihB ⊢
            have swap : List.Perm (a :: (aLeft.toList ++ aRight.toList) ++ b :: (bLeft.toList ++ bRight.toList))
                (b :: (a :: (aLeft.toList ++ aRight.toList) ++ (bLeft.toList ++ bRight.toList))) := List.perm_middle
            refine List.Perm.trans (List.Perm.cons b ?_) swap.symm
            refine (List.Perm.append_right bLeft.toList ihB).trans ?_
            simp only [List.cons_append, List.append_assoc]
            exact List.Perm.cons a (List.Perm.append_left _ (List.Perm.append_left _ List.perm_append_comm))

theorem skew_heap_merge_mem (comp : α → α → Int) (left right : BinTree α) (item : α) :
    item ∈ (skewHeapMerge comp left right).toList ↔ item ∈ left.toList ∨ item ∈ right.toList := by
  rw [(skew_heap_merge_perm comp left right).mem_iff, List.mem_append]

-- What the comparison owes its relation on the labels in use: -1 goes with one
-- direction, any other answer with the opposite one.
structure CompLe (comp : α → α → Int) (le : α → α → Prop) (inUse : α → Prop) : Prop where
  before : ∀ a b, inUse a → inUse b → comp a b = -1 → le a b
  after : ∀ a b, inUse a → inUse b → comp a b ≠ -1 → le b a
  trans : ∀ a b c, inUse a → inUse b → inUse c → le a b → le b c → le a c

theorem node_above (le : α → α → Prop) (inUse : α → Prop) (trans : ∀ a b c, inUse a → inUse b → inUse c → le a b → le b c → le a c)
    (a b : α) (left right : BinTree α) (used : ∀ item ∈ (BinTree.node left b right).toList, inUse item) (usedA : inUse a)
    (ordered : (BinTree.node left b right).HeapOrdered le) (first : le a b) :
    ∀ item ∈ (BinTree.node left b right).toList, le a item := by
  intro item member
  have usedB := used b (by simp [BinTree.toList])
  have usedItem := used item member
  simp only [BinTree.toList, List.mem_cons, List.mem_append] at member
  rcases member with here | inLeft | inRight
  · exact here ▸ first
  · exact trans a b item usedA usedB usedItem first (ordered.1 item inLeft)
  · exact trans a b item usedA usedB usedItem first (ordered.2.1 item inRight)

theorem skew_heap_merge_ordered (comp : α → α → Int) (le : α → α → Prop) (inUse : α → Prop) (lawful : CompLe comp le inUse)
    (left right : BinTree α) (usedLeft : ∀ item ∈ left.toList, inUse item) (usedRight : ∀ item ∈ right.toList, inUse item)
    (leftOrdered : left.HeapOrdered le) (rightOrdered : right.HeapOrdered le) :
    (skewHeapMerge comp left right).HeapOrdered le := by
  induction left generalizing right with
  | nil => exact rightOrdered
  | node aLeft a aRight _ ihRight =>
      have usedA := usedLeft a (by simp [BinTree.toList])
      induction right with
      | nil => exact leftOrdered
      | node bLeft b bRight _ ihB =>
          have usedB := usedRight b (by simp [BinTree.toList])
          rw [skew_heap_merge_nodes]
          split
          case isTrue smaller =>
            have above := node_above le inUse lawful.trans a b bLeft bRight usedRight usedA rightOrdered
              (lawful.before a b usedA usedB smaller)
            refine ⟨?_, leftOrdered.1, ?_, leftOrdered.2.2.1⟩
            · intro item member
              rcases (skew_heap_merge_mem comp aRight _ item).mp member with inA | inB
              · exact leftOrdered.2.1 item inA
              · exact above item inB
            · exact ihRight _ (fun item member => usedLeft item (by simp [BinTree.toList, member])) usedRight
                leftOrdered.2.2.2 rightOrdered
          case isFalse larger =>
            have above := node_above le inUse lawful.trans b a aLeft aRight usedLeft usedB leftOrdered
              (lawful.after a b usedA usedB larger)
            refine ⟨?_, rightOrdered.1, ?_, rightOrdered.2.2.1⟩
            · intro item member
              rcases (skew_heap_merge_mem comp _ bRight item).mp member with inA | inB
              · exact above item inA
              · exact rightOrdered.2.1 item inB
            · exact ihB (fun item member => usedRight item (by simp [BinTree.toList, member])) rightOrdered.2.2.2

theorem skew_heap_insert_perm (comp : α → α → Int) (heap : BinTree α) (item : α) :
    (skewHeapInsert comp heap item).toList.Perm (item :: heap.toList) := by
  refine (skew_heap_merge_perm comp heap _).trans ?_
  simp [BinTree.toList]

theorem skew_heap_insert_ordered (comp : α → α → Int) (le : α → α → Prop) (inUse : α → Prop) (lawful : CompLe comp le inUse)
    (heap : BinTree α) (item : α) (used : ∀ other ∈ heap.toList, inUse other) (usedItem : inUse item)
    (ordered : heap.HeapOrdered le) : (skewHeapInsert comp heap item).HeapOrdered le := by
  refine skew_heap_merge_ordered comp le inUse lawful heap _ used ?_ ordered ?_
  · simpa [BinTree.toList] using usedItem
  · simp [BinTree.HeapOrdered, BinTree.toList]

theorem skew_heap_remove_root [DecidableEq α] (comp : α → α → Int) (left right : BinTree α) (root : α) :
    skewHeapRemove comp root (.node left root right) = skewHeapMerge comp left right := by
  simp [skewHeapRemove]

theorem skew_heap_remove_absent [DecidableEq α] (comp : α → α → Int) (item : α) (heap : BinTree α) (absent : item ∉ heap.toList) :
    skewHeapRemove comp item heap = heap := by
  induction heap with
  | nil => rfl
  | node left root right ihLeft ihRight =>
      simp only [BinTree.toList, List.mem_cons, List.mem_append, not_or] at absent
      obtain ⟨apart, notLeft, notRight⟩ := absent
      rw [skewHeapRemove, if_neg (Ne.symm apart), ihLeft notLeft, ihRight notRight]

theorem skew_heap_remove_perm [DecidableEq α] (comp : α → α → Int) (item : α) (heap : BinTree α) (distinct : heap.toList.Nodup)
    (member : item ∈ heap.toList) : (item :: (skewHeapRemove comp item heap).toList).Perm heap.toList := by
  induction heap with
  | nil => simp [BinTree.toList] at member
  | node left root right ihLeft ihRight =>
      rw [skewHeapRemove]
      by_cases here : root = item
      · subst here
        rw [if_pos rfl]
        exact List.Perm.cons root (skew_heap_merge_perm comp left right)
      · rw [if_neg here]
        simp only [BinTree.toList, List.nodup_cons, List.nodup_append, List.mem_cons, List.mem_append] at distinct member
        obtain ⟨_, distinctLeft, distinctRight, disjoint⟩ := distinct
        refine (List.Perm.swap root item _).trans (List.Perm.cons root ?_)
        rcases member with atRoot | inLeft | inRight
        · exact absurd atRoot.symm here
        · rw [skew_heap_remove_absent comp item right fun inRight => disjoint item inLeft item inRight rfl]
          exact List.Perm.append_right right.toList (ihLeft distinctLeft inLeft)
        · rw [skew_heap_remove_absent comp item left fun inLeft => disjoint item inLeft item inRight rfl]
          exact List.perm_middle.symm.trans (List.Perm.append_left left.toList (ihRight distinctRight inRight))

theorem skew_heap_remove_mem [DecidableEq α] (comp : α → α → Int) (item other : α) (heap : BinTree α)
    (member : other ∈ (skewHeapRemove comp item heap).toList) : other ∈ heap.toList := by
  induction heap with
  | nil => exact member
  | node left root right ihLeft ihRight =>
      rw [skewHeapRemove] at member
      split at member
      · rw [skew_heap_merge_mem] at member
        simp [BinTree.toList, member]
      · simp only [BinTree.toList, List.mem_cons, List.mem_append] at member ⊢
        rcases member with atRoot | inLeft | inRight
        · exact .inl atRoot
        · exact .inr (.inl (ihLeft inLeft))
        · exact .inr (.inr (ihRight inRight))

theorem skew_heap_remove_ordered [DecidableEq α] (comp : α → α → Int) (le : α → α → Prop) (inUse : α → Prop)
    (lawful : CompLe comp le inUse) (item : α) (heap : BinTree α) (used : ∀ other ∈ heap.toList, inUse other)
    (ordered : heap.HeapOrdered le) : (skewHeapRemove comp item heap).HeapOrdered le := by
  induction heap with
  | nil => trivial
  | node left root right ihLeft ihRight =>
      obtain ⟨aboveLeft, aboveRight, leftOrdered, rightOrdered⟩ := ordered
      have usedLeft : ∀ other ∈ left.toList, inUse other := fun other member => used other (by simp [BinTree.toList, member])
      have usedRight : ∀ other ∈ right.toList, inUse other := fun other member => used other (by simp [BinTree.toList, member])
      rw [skewHeapRemove]
      split
      · exact skew_heap_merge_ordered comp le inUse lawful left right usedLeft usedRight leftOrdered rightOrdered
      · exact ⟨fun other member => aboveLeft other (skew_heap_remove_mem comp item other left member),
          fun other member => aboveRight other (skew_heap_remove_mem comp item other right member),
          ihLeft usedLeft leftOrdered, ihRight usedRight rightOrdered⟩

end Ucore.Sched
