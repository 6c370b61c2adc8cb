import Mathlib.Data.List.Basic
import Mathlib.Data.List.Nodup
import Mathlib.Logic.Function.Basic
import Mathlib.Tactic.Common
import Ucore.Lib.Sizes

set_option autoImplicit false

namespace Ucore.Lib

-- Intrusive doubly linked lists: every node carries two addresses of nodes.
structure Links (α : Type) where
  next : α → α
  prev : α → α

namespace Links

variable {α : Type}

section Writes

variable [DecidableEq α]

def setNext (links : Links α) (node target : α) : Links α := { links with next := Function.update links.next node target }

def setPrev (links : Links α) (node target : α) : Links α := { links with prev := Function.update links.prev node target }

-- The writes of an insertion between two nodes, in program order. When elm is
-- one of the two, the later writes win.
def linkBetween (links : Links α) (elm prev next : α) : Links α :=
  (((links.setPrev next elm).setNext prev elm).setNext elm next).setPrev elm prev

def unlinkBetween (links : Links α) (prev next : α) : Links α := (links.setNext prev next).setPrev next prev

end Writes

-- Neighbours in the list are neighbours in memory, in both directions.
def Linked (links : Links α) : List α → Prop
  | a :: b :: rest => links.next a = b ∧ links.prev b = a ∧ Linked links (b :: rest)
  | _ => True

def Ring (links : Links α) (head : α) (nodes : List α) : Prop :=
  Linked links (head :: (nodes ++ [head])) ∧ (head :: nodes).Nodup

theorem linked_append (links : Links α) (left right : List α) (middle : α) :
    Linked links (left ++ middle :: right) ↔ Linked links (left ++ [middle]) ∧ Linked links (middle :: right) := by
  induction left with
  | nil => simp [Linked]
  | cons a rest ih =>
      cases rest with
      | nil => simp [Linked, and_assoc]
      | cons b tail =>
          simp only [List.cons_append, Linked] at ih ⊢
          rw [ih, and_assoc, and_assoc]

theorem linked_congr (links other : Links α) (nodes : List α) (nexts : ∀ a ∈ nodes.dropLast, other.next a = links.next a)
    (prevs : ∀ b ∈ nodes.tail, other.prev b = links.prev b) (linked : Linked links nodes) : Linked other nodes := by
  induction nodes with
  | nil => trivial
  | cons a rest ih =>
      cases rest with
      | nil => trivial
      | cons b tail =>
          obtain ⟨next, prev, linkedTail⟩ := linked
          refine ⟨(nexts a (by simp)).trans next, (prevs b (by simp)).trans prev, ih ?_ ?_ linkedTail⟩
          · exact fun c member => nexts c (by simp [List.dropLast_cons_of_ne_nil, member])
          · exact fun c member => prevs c (List.mem_cons_of_mem b member)

theorem ring_empty (links : Links α) (head : α) : Ring links head [] ↔ links.next head = head ∧ links.prev head = head := by
  simp [Ring, Linked]

theorem linked_unique (links : Links α) (head start : α) (first second : List α) (left : Linked links (start :: (first ++ [head])))
    (right : Linked links (start :: (second ++ [head]))) (notFirst : head ∉ first) (notSecond : head ∉ second) : first = second := by
  induction first generalizing start second with
  | nil =>
      cases second with
      | nil => rfl
      | cons b rest =>
          have same : head = b := left.1.symm.trans right.1
          exact absurd (same ▸ List.mem_cons_self) notSecond
  | cons a more ih =>
      cases second with
      | nil =>
          have same : a = head := left.1.symm.trans right.1
          exact absurd (same ▸ List.mem_cons_self) notFirst
      | cons b rest =>
          obtain rfl : a = b := left.1.symm.trans right.1
          rw [ih a rest left.2.2 right.2.2 (fun member => notFirst (List.mem_cons_of_mem a member))
            fun member => notSecond (List.mem_cons_of_mem a member)]

-- The links say which nodes a ring has.
theorem ring_unique (links : Links α) (head : α) (first second : List α) (left : Ring links head first) (right : Ring links head second) :
    first = second :=
  linked_unique links head head first second left.1 right.1 (List.nodup_cons.mp left.2).1 (List.nodup_cons.mp right.2).1

-- A position in a ring: the node before it and the node after it.
structure Gap (head : α) (before after : List α) (prev next : α) : Prop where
  left : ∃ front, head :: before = front ++ [prev]
  right : ∃ back, after ++ [head] = next :: back

theorem gap_exists (head : α) (before after : List α) : ∃ prev next, Gap head before after prev next := by
  refine ⟨(head :: before).getLast (by simp), (after ++ [head]).head (by simp), ⟨_, (List.dropLast_append_getLast _).symm⟩, ?_⟩
  exact ⟨(after ++ [head]).tail, (List.cons_head_tail _).symm⟩

theorem ring_gap (links : Links α) (head : α) (before after : List α) (prev next : α) (gap : Gap head before after prev next)
    (ring : Ring links head (before ++ after)) : links.next prev = next ∧ links.prev next = prev := by
  obtain ⟨⟨front, left⟩, back, right⟩ := gap
  have linked := ring.1
  rw [List.append_assoc, ← List.cons_append, left, right, List.append_assoc, List.singleton_append,
    linked_append] at linked
  exact ⟨linked.2.1, linked.2.2.1⟩

theorem ring_node (links : Links α) (head node : α) (before after : List α) (prev next : α)
    (gap : Gap head before after prev next) (ring : Ring links head (before ++ node :: after)) :
    links.next prev = node ∧ links.prev node = prev ∧ links.next node = next ∧ links.prev next = node := by
  obtain ⟨⟨front, left⟩, back, right⟩ := gap
  have linked := ring.1
  rw [List.append_assoc, ← List.cons_append, left, List.append_assoc, List.singleton_append, List.cons_append, right,
    linked_append] at linked
  exact ⟨linked.2.1, linked.2.2.1, linked.2.2.2.1, linked.2.2.2.2.1⟩

theorem gap_separate (head : α) (before after : List α) (prev next : α) (gap : Gap head before after prev next)
    (nodup : (head :: (before ++ after)).Nodup) :
    (∃ front, head :: before = front ++ [prev] ∧ ∀ a ∈ front, a ≠ prev) ∧ (∀ a ∈ after, a ≠ prev) ∧
      (∃ back, after ++ [head] = next :: back ∧ ∀ b ∈ back, b ≠ next) ∧ (∀ b ∈ before, b ≠ next) := by
  obtain ⟨⟨front, left⟩, back, right⟩ := gap
  have whole : (front ++ [prev] ++ after).Nodup := by rwa [← left]
  refine ⟨⟨front, left, ?_⟩, ?_, ⟨back, right, ?_⟩, ?_⟩
  · intro a inFront same
    have apart := List.disjoint_of_nodup_append (List.Nodup.of_append_left whole)
    exact apart inFront (by simp [same])
  · intro a inAfter same
    exact List.disjoint_of_nodup_append whole (by simp [same]) inAfter
  · intro b inBack same
    cases after with
    | nil =>
        have empty : back = [] := by simpa using (congrArg List.tail right).symm
        simp [empty] at inBack
    | cons first rest =>
        simp only [List.cons_append, List.cons.injEq] at right
        obtain ⟨rfl, rfl⟩ := right
        subst b
        have restNodup := List.Nodup.of_append_right (List.nodup_cons.mp nodup).2
        rcases List.mem_append.mp inBack with inRest | atHead
        · exact (List.nodup_cons.mp restNodup).1 inRest
        · have atHead : first = head := by simpa using atHead
          exact (List.nodup_cons.mp nodup).1 (by simp [← atHead])
  · intro b inBefore same
    subst b
    cases after with
    | nil =>
        have atHead : head = next := by simpa using congrArg List.head? right
        exact (List.nodup_cons.mp nodup).1 (by simp [atHead, inBefore])
    | cons first rest =>
        simp only [List.cons_append, List.cons.injEq] at right
        exact List.disjoint_of_nodup_append (List.nodup_cons.mp nodup).2 inBefore (by simp [right.1])

theorem ring_halves (links : Links α) (head : α) (before after : List α) (prev next : α)
    (gap : Gap head before after prev next) (ring : Ring links head (before ++ after)) :
    Linked links (head :: before) ∧ Linked links (after ++ [head]) := by
  obtain ⟨⟨front, left⟩, back, right⟩ := gap
  have linked := ring.1
  rw [List.append_assoc, ← List.cons_append, left, right, List.append_assoc, List.singleton_append,
    linked_append] at linked
  rw [left, right]
  exact ⟨linked.1, linked.2.2.2⟩

-- Links that agree with the old ones outside the gap keep both halves.
theorem halves_frame (links other : Links α) (head : α) (before after : List α) (prev next : α)
    (gap : Gap head before after prev next) (nodup : (head :: (before ++ after)).Nodup)
    (nexts : ∀ a ∈ head :: (before ++ after), a ≠ prev → other.next a = links.next a)
    (prevs : ∀ b ∈ head :: (before ++ after), b ≠ next → other.prev b = links.prev b)
    (left : Linked links (head :: before)) (right : Linked links (after ++ [head])) :
    Linked other (head :: before) ∧ Linked other (after ++ [head]) := by
  obtain ⟨⟨front, leftEq, frontApart⟩, afterApart, ⟨back, rightEq, backApart⟩, beforeApart⟩ :=
    gap_separate head before after prev next gap nodup
  have inLeft : ∀ a ∈ head :: before, a ∈ head :: (before ++ after) := fun a member => by
    rcases List.mem_cons.mp member with here | later
    · simp [here]
    · simp [later]
  have inRight : ∀ a ∈ after ++ [head], a ∈ head :: (before ++ after) := fun a member => by
    rcases List.mem_append.mp member with earlier | here
    · simp [earlier]
    · simp [List.mem_singleton.mp here]
  constructor
  · apply linked_congr links other _ _ _ left
    · intro a member
      rw [leftEq, List.dropLast_concat] at member
      exact nexts a (inLeft a (leftEq ▸ List.mem_append_left _ member)) (frontApart a member)
    · intro b member
      exact prevs b (inLeft b (List.mem_cons_of_mem head member)) (beforeApart b member)
  · apply linked_congr links other _ _ _ right
    · intro a member
      rw [List.dropLast_concat] at member
      exact nexts a (inRight a (List.mem_append_left _ member)) (afterApart a member)
    · intro b member
      rw [rightEq, List.tail_cons] at member
      exact prevs b (inRight b (rightEq ▸ List.mem_cons_of_mem next member)) (backApart b member)

theorem ring_link [DecidableEq α] (links : Links α) (head elm : α) (before after : List α) (prev next : α)
    (gap : Gap head before after prev next) (ring : Ring links head (before ++ after))
    (fresh : elm ∉ head :: (before ++ after)) : Ring (links.linkBetween elm prev next) head (before ++ elm :: after) := by
  obtain ⟨left, right⟩ := ring_halves links head before after prev next gap ring
  have prevIn : prev ∈ head :: (before ++ after) := by
    obtain ⟨⟨front, leftEq⟩, _⟩ := gap
    have member : prev ∈ head :: before := by rw [leftEq]; simp
    rcases List.mem_cons.mp member with here | later <;> simp [*]
  have nextIn : next ∈ head :: (before ++ after) := by
    obtain ⟨_, back, rightEq⟩ := gap
    have member : next ∈ after ++ [head] := by rw [rightEq]; simp
    rcases List.mem_append.mp member with earlier | here
    · simp [earlier]
    · simp [List.mem_singleton.mp here]
  have apartPrev : prev ≠ elm := fun same => fresh (same ▸ prevIn)
  have apartNext : next ≠ elm := fun same => fresh (same ▸ nextIn)
  obtain ⟨newLeft, newRight⟩ := halves_frame links (links.linkBetween elm prev next) head before after prev next gap ring.2
    (fun a member apart => by
      have other : a ≠ elm := fun same => fresh (same ▸ member)
      simp [linkBetween, setNext, setPrev, apart, other])
    (fun b member apart => by
      have other : b ≠ elm := fun same => fresh (same ▸ member)
      simp [linkBetween, setNext, setPrev, apart, other]) left right
  constructor
  · obtain ⟨⟨front, leftEq⟩, back, rightEq⟩ := gap
    rw [List.append_assoc, List.cons_append, rightEq, ← List.cons_append, leftEq, List.append_assoc, List.singleton_append,
      linked_append, ← leftEq]
    refine ⟨newLeft, ?_, ?_, ?_, ?_, rightEq ▸ newRight⟩ <;>
      simp [linkBetween, setNext, setPrev, apartPrev, apartNext]
  · rw [← List.cons_append, List.nodup_middle]
    exact List.nodup_cons.mpr ⟨fresh, ring.2⟩

theorem ring_unlink [DecidableEq α] (links : Links α) (head elm : α) (before after : List α) (prev next : α)
    (gap : Gap head before after prev next) (ring : Ring links head (before ++ elm :: after)) :
    Ring (links.unlinkBetween prev next) head (before ++ after) := by
  have nodup : (head :: (before ++ after)).Nodup :=
    (List.nodup_cons.mp (List.nodup_middle.mp ring.2 : (elm :: (head :: before ++ after)).Nodup)).2
  have halves : Linked links (head :: before) ∧ Linked links (after ++ [head]) := by
    obtain ⟨⟨front, leftEq⟩, back, rightEq⟩ := gap
    have linked := ring.1
    rw [List.append_assoc, ← List.cons_append, leftEq, List.append_assoc, List.singleton_append, List.cons_append, rightEq,
      linked_append] at linked
    rw [leftEq, rightEq]
    exact ⟨linked.1, linked.2.2.2.2.2⟩
  obtain ⟨newLeft, newRight⟩ := halves_frame links (links.unlinkBetween prev next) head before after prev next gap nodup
    (fun a _ apart => by simp [unlinkBetween, setNext, setPrev, apart])
    (fun b _ apart => by simp [unlinkBetween, setNext, setPrev, apart]) halves.1 halves.2
  refine ⟨?_, nodup⟩
  obtain ⟨⟨front, leftEq⟩, back, rightEq⟩ := gap
  rw [List.append_assoc, rightEq, ← List.cons_append, leftEq, List.append_assoc, List.singleton_append, linked_append, ← leftEq]
  exact ⟨newLeft, by simp [unlinkBetween, setNext, setPrev], by simp [unlinkBetween, setNext, setPrev], rightEq ▸ newRight⟩

-- In a ring the two links are inverse at every node.
theorem ring_inverse (links : Links α) (head : α) (nodes : List α) (ring : Ring links head nodes) (node : α)
    (member : node ∈ head :: nodes) : links.next (links.prev node) = node ∧ links.prev (links.next node) = node := by
  rcases List.mem_cons.mp member with atHead | inside
  · subst node
    obtain ⟨first, second, front⟩ := gap_exists head ([] : List α) nodes
    obtain ⟨third, fourth, rear⟩ := gap_exists head nodes ([] : List α)
    have firstEq : head = first := by
      obtain ⟨before, leftEq⟩ := front.left
      exact List.singleton_inj.mp (List.append_inj' (show [] ++ [head] = before ++ [first] from leftEq) rfl).2
    have fourthEq : head = fourth := by
      obtain ⟨after, rightEq⟩ := rear.right
      exact (List.cons.inj rightEq).1
    have atFront := ring_gap links head [] nodes first second front ring
    have atRear := ring_gap links head nodes [] third fourth rear (by rwa [List.append_nil])
    subst firstEq fourthEq
    exact ⟨by rw [atRear.2, atRear.1], by rw [atFront.1, atFront.2]⟩
  · obtain ⟨before, after, rfl⟩ := List.append_of_mem inside
    obtain ⟨prev, next, gap⟩ := gap_exists head before after
    obtain ⟨toNode, fromNode, onward, back⟩ := ring_node links head node before after prev next gap ring
    exact ⟨by rw [fromNode, toNode], by rw [onward, back]⟩

end Links

-- A queue in so many slots. The positions only grow, and a slot is the place of a
-- position modulo their number.
section Fifo

variable {α : Type} (size : Nat)

def slotsFrom (slots : Nat → α) (first count : Nat) : List α := (List.range count).map fun i => slots ((first + i) % size)

theorem slots_length (slots : Nat → α) (first count : Nat) : (slotsFrom size slots first count).length = count := by
  simp [slotsFrom]

theorem slots_cons (slots : Nat → α) (first count : Nat) :
    slotsFrom size slots first (count + 1) = slots (first % size) :: slotsFrom size slots (first + 1) count := by
  simp only [slotsFrom, List.range_succ_eq_map, List.map_cons, List.map_map, Nat.add_zero, List.cons.injEq, true_and]
  refine List.map_congr_left fun i _ => ?_
  simp only [Function.comp, Nat.succ_eq_add_one]
  rw [Nat.add_right_comm, Nat.add_assoc]

theorem slots_snoc (slots : Nat → α) (first count : Nat) :
    slotsFrom size slots first (count + 1) = slotsFrom size slots first count ++ [slots ((first + count) % size)] := by
  simp [slotsFrom, List.range_succ]

theorem slots_congr (slots other : Nat → α) (first count : Nat) (same : ∀ i, i < count → slots ((first + i) % size) = other ((first + i) % size)) :
    slotsFrom size slots first count = slotsFrom size other first count :=
  List.map_congr_left fun i inside => same i (List.mem_range.mp inside)

-- Positions less than a turn apart have slots of their own.
theorem slot_apart (first i j : Nat) (order : i < j) (turn : j < i + size) : (first + i) % size ≠ (first + j) % size := by
  intro same
  have divides : size ∣ (first + j) - (first + i) := Nat.dvd_of_mod_eq_zero (Nat.sub_mod_eq_zero_of_mod_eq same.symm)
  have small := Nat.le_of_dvd (by omega) divides
  omega

theorem slots_put (slots : Nat → α) (first count : Nat) (item : α) (room : count < size) :
    slotsFrom size (Function.update slots ((first + count) % size) item) first (count + 1) = slotsFrom size slots first count ++ [item] := by
  rw [slots_snoc, Function.update_self, slots_congr size _ slots first count fun i inside => ?_]
  exact Function.update_of_ne (slot_apart size first i count inside (by omega)) item slots

-- With no slot left the one behind the last is the first.
theorem slots_full (slots : Nat → α) (first count : Nat) (item : α) (full : size = count + 1) :
    slotsFrom size (Function.update slots ((first + size) % size) item) first size = item :: slotsFrom size slots (first + 1) count := by
  have turn : (first + size) % size = first % size := Nat.add_mod_right first size
  rw [turn]
  conv => lhs; arg 4; rw [full]
  rw [slots_cons, Function.update_self, slots_congr size _ slots (first + 1) count fun i inside => ?_]
  refine Function.update_of_ne ?_ item slots
  have apart := slot_apart size first 0 (i + 1) (by omega) (by omega)
  rw [show first + 1 + i = first + (i + 1) by omega]
  exact fun same => apart (by simpa using same.symm)

end Fifo

end Ucore.Lib
