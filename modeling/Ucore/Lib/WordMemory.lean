import Ucore.Lib.Ring

set_option autoImplicit false

namespace Ucore.Lib

-- A memory of eight-byte words by address, with the addresses written so far.
structure Memory where
  word : Nat → Nat
  written : List Nat

namespace Memory

def load (m : Memory) (a : Nat) : Nat := m.word a
def store (m : Memory) (a value : Nat) : Memory := ⟨Function.update m.word a value, a :: m.written⟩

theorem store_same (m : Memory) (a value : Nat) : (m.store a value).word a = value := Function.update_self _ _ _

theorem store_other (m : Memory) (a value b : Nat) (apart : b ≠ a) : (m.store a value).word b = m.word b := Function.update_of_ne apart _ _

-- Nothing but allowed words is written.
structure Only (allowed : Nat → Prop) (m after : Memory) : Prop where
  written : ∀ a ∈ after.written, a ∈ m.written ∨ allowed a
  kept : ∀ a, ¬ allowed a → after.word a = m.word a

theorem only_refl (allowed : Nat → Prop) (m : Memory) : Only allowed m m := ⟨fun _ member => .inl member, fun _ _ => rfl⟩

theorem only_trans (allowed : Nat → Prop) (first second third : Memory) (left : Only allowed first second) (right : Only allowed second third) :
    Only allowed first third where
  written := fun a member => (right.written a member).elim (left.written a) .inr
  kept := fun a outside => (right.kept a outside).trans (left.kept a outside)

theorem only_mono (allowed wider : Nat → Prop) (m after : Memory) (within : ∀ a, allowed a → wider a) (only : Only allowed m after) :
    Only wider m after where
  written := fun a member => (only.written a member).imp_right (within a)
  kept := fun a outside => only.kept a fun inside => outside (within a inside)

theorem only_store (allowed : Nat → Prop) (first second : Memory) (a value : Nat) (only : Only allowed first second) (inside : allowed a) :
    Only allowed first (second.store a value) where
  written := fun b member => by
    rcases List.mem_cons.mp member with here | old
    · exact .inr (here ▸ inside)
    · exact only.written b old
  kept := fun b outside => by
    have apart : b ≠ a := fun same => outside (same ▸ inside)
    exact (Function.update_of_ne apart value second.word).trans (only.kept b outside)

-- An intrusive list node is two words: prev at its address and next above it.
def links (m : Memory) : Links Nat := ⟨fun node => m.word (node + 8), m.word⟩

def insertBetween (m : Memory) (elm prev next : Nat) : Memory := (((m.store next elm).store (prev + 8) elm).store (elm + 8) next).store elm prev
def removeBetween (m : Memory) (prev next : Nat) : Memory := (m.store (prev + 8) next).store next prev

def listInit (m : Memory) (elm : Nat) : Memory := (m.store (elm + 8) elm).store elm elm
def listAdd (m : Memory) (listelm elm : Nat) : Memory := m.insertBetween elm listelm (m.load (listelm + 8))
def listDel (m : Memory) (listelm : Nat) : Memory := m.removeBetween (m.load listelm) (m.load (listelm + 8))
def ListEmpty (m : Memory) (list : Nat) : Prop := m.load (list + 8) = list

instance (m : Memory) (list : Nat) : Decidable (m.ListEmpty list) := inferInstanceAs (Decidable (m.load (list + 8) = list))

-- The words of some nodes.
def NodeWord (nodes : List Nat) (a : Nat) : Prop := ∃ node ∈ nodes, a = node ∨ a = node + 8

-- No node has its prev where another has its next.
def Spaced (nodes : List Nat) : Prop := ∀ a ∈ nodes, ∀ b ∈ nodes, a ≠ b + 8

theorem ring_congr (links other : Links Nat) (head : Nat) (nodes : List Nat) (same : ∀ a ∈ head :: nodes, other.next a = links.next a ∧ other.prev a = links.prev a)
    (ring : Links.Ring links head nodes) : Links.Ring other head nodes := by
  have inside : ∀ a ∈ head :: (nodes ++ [head]), a ∈ head :: nodes := fun a member => by
    simp only [List.mem_cons, List.mem_append, List.not_mem_nil, or_false] at member ⊢
    tauto
  exact ⟨Links.linked_congr links other _ (fun a member => (same a (inside a (List.dropLast_subset _ member))).1)
    (fun b member => (same b (inside b (List.mem_of_mem_tail member))).2) ring.1, ring.2⟩

theorem ring_frame (m after : Memory) (allowed : Nat → Prop) (head : Nat) (nodes : List Nat) (only : Only allowed m after)
    (outside : ∀ a, NodeWord (head :: nodes) a → ¬ allowed a) (ring : Links.Ring m.links head nodes) : Links.Ring after.links head nodes :=
  ring_congr m.links after.links head nodes
    (fun a member => ⟨only.kept _ (outside _ ⟨a, member, .inr rfl⟩), only.kept _ (outside _ ⟨a, member, .inl rfl⟩)⟩) ring

theorem insert_links (m : Memory) (elm prev next : Nat) (nodes : List Nat) (spaced : Spaced nodes) (first : elm ∈ nodes) (second : prev ∈ nodes)
    (third : next ∈ nodes) (node : Nat) (member : node ∈ nodes) :
    (m.insertBetween elm prev next).links.next node = (m.links.linkBetween elm prev next).next node ∧
      (m.insertBetween elm prev next).links.prev node = (m.links.linkBetween elm prev next).prev node := by
  have elmNext := spaced elm first node member
  have nextNext := spaced next third node member
  have elmPrev := spaced node member elm first
  have prevPrev := spaced node member prev second
  constructor
  · simp [insertBetween, links, store, Links.linkBetween, Links.setNext, Links.setPrev, Function.update_apply, elmNext.symm, nextNext.symm]
  · simp [insertBetween, links, store, Links.linkBetween, Links.setNext, Links.setPrev, Function.update_apply, elmPrev, prevPrev]

theorem remove_links (m : Memory) (prev next : Nat) (nodes : List Nat) (spaced : Spaced nodes) (second : prev ∈ nodes) (third : next ∈ nodes) (node : Nat)
    (member : node ∈ nodes) :
    (m.removeBetween prev next).links.next node = (m.links.unlinkBetween prev next).next node ∧
      (m.removeBetween prev next).links.prev node = (m.links.unlinkBetween prev next).prev node := by
  have nextNext := spaced next third node member
  have prevPrev := spaced node member prev second
  constructor
  · simp [removeBetween, links, store, Links.unlinkBetween, Links.setNext, Links.setPrev, Function.update_apply, nextNext.symm]
  · simp [removeBetween, links, store, Links.unlinkBetween, Links.setNext, Links.setPrev, Function.update_apply, prevPrev]

theorem spaced_subset (nodes fewer : List Nat) (spaced : Spaced nodes) (within : ∀ a ∈ fewer, a ∈ nodes) : Spaced fewer := fun a left b right =>
  spaced a (within a left) b (within b right)

theorem front_gap (head : Nat) (nodes : List Nat) : ∃ next, Links.Gap head [] nodes head next ∧ next ∈ head :: nodes := by
  cases nodes with
  | nil => exact ⟨head, ⟨⟨[], rfl⟩, [], rfl⟩, by simp⟩
  | cons first rest => exact ⟨first, ⟨⟨[], rfl⟩, rest ++ [head], rfl⟩, by simp⟩

theorem list_add_spec (m : Memory) (head elm : Nat) (nodes : List Nat) (ring : Links.Ring m.links head nodes) (spaced : Spaced (elm :: head :: nodes))
    (fresh : elm ∉ head :: nodes) :
    Links.Ring (m.listAdd head elm).links head (elm :: nodes) ∧ Only (NodeWord (elm :: head :: nodes)) m (m.listAdd head elm) := by
  obtain ⟨next, gap, nextIn⟩ := front_gap head nodes
  have onward : m.load (head + 8) = next := (Links.ring_gap m.links head [] nodes head next gap ring).1
  have linked := Links.ring_link m.links head elm [] nodes head next gap ring fresh
  rw [listAdd, onward]
  constructor
  · refine ring_congr _ _ head (elm :: nodes) (fun a member => ?_) linked
    refine insert_links m elm head next _ spaced (by simp) (by simp) (List.mem_cons_of_mem elm nextIn) a ?_
    simp only [List.mem_cons] at member ⊢
    tauto
  · have first := only_store (NodeWord (elm :: head :: nodes)) m m next elm (only_refl _ m) ⟨next, List.mem_cons_of_mem elm nextIn, .inl rfl⟩
    have second := only_store _ m _ (head + 8) elm first ⟨head, by simp, .inr rfl⟩
    have third := only_store _ m _ (elm + 8) next second ⟨elm, by simp, .inr rfl⟩
    exact only_store _ m _ elm head third ⟨elm, by simp, .inl rfl⟩

theorem list_del_spec (m : Memory) (head elm : Nat) (nodes : List Nat) (ring : Links.Ring m.links head (elm :: nodes)) (spaced : Spaced (head :: nodes)) :
    Links.Ring (m.listDel elm).links head nodes ∧ Only (NodeWord (head :: nodes)) m (m.listDel elm) := by
  obtain ⟨next, gap, nextIn⟩ := front_gap head nodes
  obtain ⟨_, back, onward, _⟩ := Links.ring_node m.links head elm [] nodes head next gap ring
  have unlinked := Links.ring_unlink m.links head elm [] nodes head next gap ring
  have here : m.listDel elm = m.removeBetween head next := by
    rw [listDel]
    exact congrArg₂ m.removeBetween back onward
  rw [here]
  constructor
  · exact ring_congr _ _ head nodes (fun a member => remove_links m head next _ spaced (by simp) nextIn a member) unlinked
  · have first := only_store (NodeWord (head :: nodes)) m m (head + 8) next (only_refl _ m) ⟨head, by simp, .inr rfl⟩
    exact only_store _ m _ next head first ⟨next, nextIn, .inl rfl⟩

theorem ring_first (m : Memory) (head elm : Nat) (nodes : List Nat) (ring : Links.Ring m.links head (elm :: nodes)) : m.load (head + 8) = elm := by
  obtain ⟨next, gap, _⟩ := front_gap head nodes
  exact (Links.ring_node m.links head elm [] nodes head next gap ring).1

theorem list_empty_iff (m : Memory) (head : Nat) (nodes : List Nat) (ring : Links.Ring m.links head nodes) : m.ListEmpty head ↔ nodes = [] := by
  cases nodes with
  | nil =>
      have round : m.load (head + 8) = head := ((Links.ring_empty m.links head).mp ring).1
      simp [ListEmpty, round]
  | cons elm rest =>
      have first := ring_first m head elm rest ring
      have apart : elm ≠ head := fun same => (List.nodup_cons.mp ring.2).1 (by simp [same])
      simp [ListEmpty, first, apart]

-- Adding some nodes one after the other puts the last one first.
theorem add_all_spec (m : Memory) (head : Nat) (elms nodes : List Nat) (ring : Links.Ring m.links head nodes) (spaced : Spaced (head :: (elms ++ nodes)))
    (fresh : (head :: (elms ++ nodes)).Nodup) :
    Links.Ring (elms.foldl (fun m elm => m.listAdd head elm) m).links head (elms.reverse ++ nodes) ∧
      Only (NodeWord (head :: (elms ++ nodes))) m (elms.foldl (fun m elm => m.listAdd head elm) m) := by
  induction elms generalizing m nodes with
  | nil => exact ⟨ring, only_refl _ m⟩
  | cons elm rest ih =>
      have notIn : elm ∉ head :: nodes := by
        simp only [List.cons_append, List.nodup_cons, List.mem_cons, List.mem_append] at fresh ⊢
        tauto
      obtain ⟨added, once⟩ := list_add_spec m head elm nodes ring (spaced_subset _ _ spaced fun a member => by
        simp only [List.mem_cons, List.mem_append] at member ⊢
        tauto) notIn
      have moved : (head :: (rest ++ elm :: nodes)).Perm (head :: (elm :: rest ++ nodes)) := List.Perm.cons head List.perm_middle
      obtain ⟨whole, later⟩ := ih (m.listAdd head elm) (elm :: nodes) added (spaced_subset _ _ spaced fun a member => moved.mem_iff.mp member)
        (moved.nodup_iff.mpr fresh)
      refine ⟨by simpa using whole, only_trans _ m _ _ (only_mono _ _ _ _ ?_ once) (only_mono _ _ _ _ ?_ later)⟩
      · rintro a ⟨node, member, part⟩
        refine ⟨node, ?_, part⟩
        simp only [List.mem_cons, List.mem_append] at member ⊢
        tauto
      · rintro a ⟨node, member, part⟩
        exact ⟨node, moved.mem_iff.mp member, part⟩

end Memory

end Ucore.Lib
