import Mathlib.Logic.Function.Basic
import Mathlib.Data.List.Perm.Basic
import Ucore.Lib.Sizes

set_option autoImplicit false

namespace Ucore.Lib

-- Binary trees with a label at every inner node. The order of the labels is
-- not part of the tree: HeapOrdered states it for a relation of the user.
inductive BinTree (α : Type) where
  | nil
  | node (left : BinTree α) (root : α) (right : BinTree α)
deriving DecidableEq, Repr

namespace BinTree

variable {α : Type}

def toList : BinTree α → List α
  | .nil => []
  | .node left root right => root :: (left.toList ++ right.toList)

def root? : BinTree α → Option α
  | .nil => none
  | .node _ root _ => some root

def HeapOrdered (le : α → α → Prop) : BinTree α → Prop
  | .nil => True
  | .node left root right =>
      (∀ item ∈ left.toList, le root item) ∧ (∀ item ∈ right.toList, le root item) ∧
        left.HeapOrdered le ∧ right.HeapOrdered le

theorem root_mem (tree : BinTree α) (item : α) (top : tree.root? = some item) : item ∈ tree.toList := by
  cases tree with
  | nil => simp [root?] at top
  | node left root right =>
      have same : root = item := Option.some.inj top
      simp [toList, same]

theorem root_none (tree : BinTree α) : tree.root? = none ↔ tree = .nil := by
  cases tree <;> simp [root?]

theorem heap_root_least (le : α → α → Prop) (tree : BinTree α) (item other : α) (refl : le item item)
    (ordered : tree.HeapOrdered le) (top : tree.root? = some item) (member : other ∈ tree.toList) : le item other := by
  cases tree with
  | nil => simp [root?] at top
  | node left root right =>
      have same : root = item := Option.some.inj top
      subst root
      simp only [toList, List.mem_cons, List.mem_append] at member
      rcases member with here | inLeft | inRight
      · exact here ▸ refl
      · exact ordered.1 other inLeft
      · exact ordered.2.1 other inRight

-- A relation that changes only outside the tree keeps the tree's order.
theorem heap_ordered_congr (le next : α → α → Prop) (tree : BinTree α)
    (agree : ∀ a ∈ tree.toList, ∀ b ∈ tree.toList, le a b → next a b) (ordered : tree.HeapOrdered le) :
    tree.HeapOrdered next := by
  induction tree with
  | nil => trivial
  | node left root right ihLeft ihRight =>
      obtain ⟨aboveLeft, aboveRight, leftOrdered, rightOrdered⟩ := ordered
      refine ⟨?_, ?_, ihLeft ?_ leftOrdered, ihRight ?_ rightOrdered⟩
      · exact fun item member => agree root (by simp [toList]) item (by simp [toList, member]) (aboveLeft item member)
      · exact fun item member => agree root (by simp [toList]) item (by simp [toList, member]) (aboveRight item member)
      · exact fun a ha b hb => agree a (by simp [toList, ha]) b (by simp [toList, hb])
      · exact fun a ha b hb => agree a (by simp [toList, ha]) b (by simp [toList, hb])

end BinTree

-- Nodes that name their parent and their children, over any type of addresses.
structure TreeLinks (P : Type) where
  parent : Option P
  left : Option P
  right : Option P
deriving DecidableEq, Repr

variable {P : Type}

-- The links spell out the tree, with up as the parent of its root.
def Linked (links : P → TreeLinks P) : Option P → BinTree P → Prop
  | _, .nil => True
  | up, .node left root right =>
      links root = ⟨up, left.root?, right.root?⟩ ∧ Linked links (some root) left ∧ Linked links (some root) right

theorem linked_congr (links next : P → TreeLinks P) (tree : BinTree P) (up : Option P)
    (same : ∀ node ∈ tree.toList, next node = links node) (linked : Linked links up tree) : Linked next up tree := by
  induction tree generalizing up with
  | nil => trivial
  | node left root right ihLeft ihRight =>
      obtain ⟨here, inLeft, inRight⟩ := linked
      refine ⟨(same root (by simp [BinTree.toList])).trans here, ihLeft _ ?_ inLeft, ihRight _ ?_ inRight⟩
      · exact fun node member => same node (by simp [BinTree.toList, member])
      · exact fun node member => same node (by simp [BinTree.toList, member])

theorem linked_root_parent (links : P → TreeLinks P) (tree : BinTree P) (up : Option P) (node : P) (linked : Linked links up tree)
    (top : tree.root? = some node) : (links node).parent = up := by
  cases tree with
  | nil => simp [BinTree.root?] at top
  | node left root right =>
      obtain rfl : root = node := Option.some.inj top
      rw [linked.1]

-- Every child in a linked tree names the node that it hangs under.
theorem linked_child (links : P → TreeLinks P) (tree : BinTree P) (up : Option P) (node child : P) (linked : Linked links up tree)
    (member : node ∈ tree.toList) (under : (links node).left = some child ∨ (links node).right = some child) :
    child ∈ tree.toList ∧ (links child).parent = some node := by
  induction tree generalizing up with
  | nil => simp [BinTree.toList] at member
  | node left root right ihLeft ihRight =>
      obtain ⟨here, inLeft, inRight⟩ := linked
      simp only [BinTree.toList, List.mem_cons, List.mem_append] at member ⊢
      rcases member with rfl | below | below
      · rw [here] at under
        cases under with
        | inl top => exact ⟨.inr (.inl (left.root_mem child top)), linked_root_parent links left _ child inLeft top⟩
        | inr top => exact ⟨.inr (.inr (right.root_mem child top)), linked_root_parent links right _ child inRight top⟩
      · obtain ⟨inside, named⟩ := ihLeft _ inLeft below
        exact ⟨.inr (.inl inside), named⟩
      · obtain ⟨inside, named⟩ := ihRight _ inRight below
        exact ⟨.inr (.inr inside), named⟩

theorem linked_ordered_child (links : P → TreeLinks P) (le : P → P → Prop) (tree : BinTree P) (up : Option P) (node child : P)
    (linked : Linked links up tree) (ordered : tree.HeapOrdered le) (member : node ∈ tree.toList)
    (under : (links node).left = some child ∨ (links node).right = some child) : le node child := by
  induction tree generalizing up with
  | nil => exact absurd member List.not_mem_nil
  | node left root right ihLeft ihRight =>
      obtain ⟨here, inLeft, inRight⟩ := linked
      obtain ⟨aboveLeft, aboveRight, leftOrdered, rightOrdered⟩ := ordered
      simp only [BinTree.toList, List.mem_cons, List.mem_append] at member
      rcases member with rfl | below | below
      · rw [here] at under
        cases under with
        | inl top => exact aboveLeft child (left.root_mem child top)
        | inr top => exact aboveRight child (right.root_mem child top)
      · exact ihLeft _ inLeft leftOrdered below
      · exact ihRight _ inRight rightOrdered below

section Writes

variable [DecidableEq P]

def setParent (links : P → TreeLinks P) (child parent : Option P) : P → TreeLinks P :=
  match child with
  | none => links
  | some child => Function.update links child { links child with parent := parent }

theorem set_parent_elsewhere (links : P → TreeLinks P) (child parent : Option P) (node : P) (apart : child ≠ some node) :
    setParent links child parent node = links node := by
  cases child with
  | none => rfl
  | some child =>
      have other : node ≠ child := fun same => apart (same ▸ rfl)
      simp [setParent, other]

theorem set_parent_linked (links : P → TreeLinks P) (tree : BinTree P) (up down : Option P) (distinct : tree.toList.Nodup)
    (linked : Linked links up tree) : Linked (setParent links tree.root? down) down tree := by
  cases tree with
  | nil => trivial
  | node left root right =>
      obtain ⟨here, inLeft, inRight⟩ := linked
      obtain ⟨outside, _⟩ := List.nodup_cons.mp distinct
      have kept : ∀ node ∈ left.toList ++ right.toList, setParent links (some root) down node = links node := by
        intro node member
        apply set_parent_elsewhere
        rintro ⟨⟩
        exact outside member
      refine ⟨by simp [setParent, BinTree.root?, here], linked_congr links _ left _ ?_ inLeft, linked_congr links _ right _ ?_ inRight⟩
      · exact fun node member => kept node (List.mem_append_left _ member)
      · exact fun node member => kept node (List.mem_append_right _ member)

-- The writes that give node two new subtrees, the first of which hung elsewhere.
def attach (links : P → TreeLinks P) (node : P) (left right : Option P) : P → TreeLinks P :=
  setParent (Function.update links node { links node with left := left, right := right }) left (some node)

theorem attach_elsewhere (links : P → TreeLinks P) (node other : P) (left right : Option P) (apart : other ≠ node)
    (outside : left ≠ some other) : attach links node left right other = links other := by
  unfold attach
  rw [set_parent_elsewhere _ _ _ _ outside, Function.update_of_ne apart]

theorem attach_linked (links : P → TreeLinks P) (left right : BinTree P) (root : P) (up old : Option P)
    (distinct : (BinTree.node left root right).toList.Nodup) (above : (links root).parent = up) (inLeft : Linked links old left)
    (inRight : Linked links (some root) right) : Linked (attach links root left.root? right.root?) up (.node left root right) := by
  obtain ⟨outside, below⟩ := List.nodup_cons.mp distinct
  obtain ⟨leftDistinct, _, separate⟩ := List.nodup_append.mp below
  have rootOut : left.root? ≠ some root := fun top => outside (List.mem_append_left _ (left.root_mem root top))
  have updated : ∀ node ∈ left.toList ++ right.toList,
      Function.update links root { links root with left := left.root?, right := right.root? } node = links node := by
    intro node member
    have apart : node ≠ root := fun same => outside (same ▸ member)
    rw [Function.update_of_ne apart]
  refine ⟨?_, ?_, ?_⟩
  · unfold attach
    rw [set_parent_elsewhere _ _ _ _ rootOut]
    simp [above]
  · apply set_parent_linked _ left old (some root) leftDistinct
    exact linked_congr links _ left old (fun node member => updated node (List.mem_append_left _ member)) inLeft
  · apply linked_congr links _ right _ _ inRight
    intro node member
    have apart : node ≠ root := fun same => outside (same ▸ List.mem_append_right _ member)
    apply attach_elsewhere links root node _ _ apart
    exact fun top => separate node (left.root_mem node top) node member rfl

end Writes

end Ucore.Lib
