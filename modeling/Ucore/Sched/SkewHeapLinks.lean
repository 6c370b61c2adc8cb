import Mathlib.Data.Finset.Card
import Ucore.Lib.BinTree
import Ucore.Sched.SkewHeap

set_option autoImplicit false

namespace Ucore.Sched.SkewEntry

open Ucore.Lib

variable {P : Type} [DecidableEq P]

-- The memory of the skew_heap_entry_t nodes. comp reads fields of the processes
-- around them, which no operation here writes.
abbrev Entries (P : Type) := P → TreeLinks P

def skewHeapInit (entries : Entries P) (a : P) : Entries P := Function.update entries a ⟨none, none, none⟩

-- The recursion with its depth, none when that does not suffice.
def skewHeapMerge (comp : P → P → Int) : Nat → Entries P → Option P → Option P → Option (Option P × Entries P)
  | 0, _, _, _ => none
  | _ + 1, entries, none, b => some (b, entries)
  | _ + 1, entries, some a, none => some (some a, entries)
  | depth + 1, entries, some a, some b =>
      if comp a b = -1 then do
        let r := (entries a).left
        let (l, entries) ← skewHeapMerge comp depth entries (entries a).right (some b)
        return (some a, attach entries a l r)
      else do
        let r := (entries b).left
        let (l, entries) ← skewHeapMerge comp depth entries (some a) (entries b).right
        return (some b, attach entries b l r)

def skewHeapInsert (comp : P → P → Int) (depth : Nat) (entries : Entries P) (a : Option P) (b : P) :
    Option (Option P × Entries P) :=
  skewHeapMerge comp depth (skewHeapInit entries b) a (some b)

-- The write of the child of p that was b.
def replaceChild (entries : Entries P) (p b : P) (rep : Option P) : Entries P :=
  if (entries p).left = some b then Function.update entries p { entries p with left := rep }
  else Function.update entries p { entries p with right := rep }

def skewHeapRemove (comp : P → P → Int) (depth : Nat) (entries : Entries P) (a : Option P) (b : P) :
    Option (Option P × Entries P) := do
  let p := (entries b).parent
  let (rep, entries) ← skewHeapMerge comp depth entries (entries b).left (entries b).right
  let entries := setParent entries rep p
  match p with
  | none => return (rep, entries)
  | some p => return (a, replaceChild entries p b rep)

-- Each level of the merge hangs what the inner call merged under its root x, beside
-- the child that was left.
theorem attach_merged (entries after : Entries P) (x : P) (other merged : BinTree P) (rest : List P) (up old : Option P)
    (same : merged.toList.Perm rest) (distinct : (x :: (other.toList ++ rest)).Nodup) (above : (entries x).parent = up)
    (inOther : Linked entries (some x) other) (inMerged : Linked after old merged)
    (frame : ∀ node, node ∉ rest → after node = entries node) :
    Linked (attach after x merged.root? other.root?) up (.node merged x other) ∧
      ∀ node, node ∉ x :: (other.toList ++ rest) → attach after x merged.root? other.root? node = entries node := by
  obtain ⟨outside, below⟩ := List.nodup_cons.mp distinct
  obtain ⟨_, _, separate⟩ := List.nodup_append.mp below
  have swapped : (BinTree.node merged x other).toList.Perm (x :: (other.toList ++ rest)) :=
    List.Perm.cons x ((List.Perm.append_right _ same).trans List.perm_append_comm)
  have kept : after x = entries x := frame x fun member => outside (List.mem_append_right _ member)
  constructor
  · apply attach_linked after merged other x up old (swapped.nodup_iff.mpr distinct) _ inMerged
    · apply linked_congr entries after other _ _ inOther
      exact fun node member => frame node fun also => separate node member node also rfl
    · rw [kept, above]
  · intro node out
    simp only [List.mem_cons, List.mem_append, not_or] at out
    rw [attach_elsewhere after x node _ _ out.1]
    · exact frame node out.2.2
    · exact fun top => out.2.2 (same.mem_iff.mp (merged.root_mem node top))

-- The merged tree in memory. Its root keeps the parent pointer that it had, and
-- nothing outside is written.
theorem skew_heap_merge_linked (comp : P → P → Int) (depth : Nat) (entries : Entries P) (left right : BinTree P)
    (upLeft upRight : Option P) (inLeft : Linked entries upLeft left) (inRight : Linked entries upRight right)
    (distinct : (left.toList ++ right.toList).Nodup) (deep : left.toList.length + right.toList.length < depth) :
    ∃ after up, skewHeapMerge comp depth entries left.root? right.root? = some ((Sched.skewHeapMerge comp left right).root?, after) ∧
      (up = upLeft ∨ up = upRight) ∧ Linked after up (Sched.skewHeapMerge comp left right) ∧
      ∀ node, node ∉ left.toList ++ right.toList → after node = entries node := by
  induction depth generalizing left right upLeft upRight with
  | zero => omega
  | succ depth ih =>
      cases left with
      | nil => exact ⟨entries, upRight, rfl, .inr rfl, inRight, fun _ _ => rfl⟩
      | node aLeft a aRight =>
          cases right with
          | nil => exact ⟨entries, upLeft, rfl, .inl rfl, inLeft, fun _ _ => rfl⟩
          | node bLeft b bRight =>
              obtain ⟨atA, inALeft, inARight⟩ := inLeft
              obtain ⟨atB, inBLeft, inBRight⟩ := inRight
              simp only [BinTree.toList, List.length_cons, List.length_append] at deep
              rw [skew_heap_merge_nodes]
              by_cases before : comp a b = -1
              · have order : List.Perm (a :: (aLeft.toList ++ (aRight.toList ++ (BinTree.node bLeft b bRight).toList)))
                    ((BinTree.node aLeft a aRight).toList ++ (BinTree.node bLeft b bRight).toList) := by
                  simp [BinTree.toList]
                have apart := order.nodup_iff.mpr distinct
                have inner := (List.nodup_append.mp (List.nodup_cons.mp apart).2).2.1
                obtain ⟨after, up, returns, _, linked, frame⟩ :=
                  ih aRight (.node bLeft b bRight) (some a) upRight inARight ⟨atB, inBLeft, inBRight⟩ inner
                    (by simp only [BinTree.toList, List.length_cons, List.length_append]; omega)
                obtain ⟨whole, outside⟩ := attach_merged entries after a aLeft _ _ upLeft up
                  (skew_heap_merge_perm comp aRight (.node bLeft b bRight)) apart (by rw [atA]) inALeft linked frame
                refine ⟨_, upLeft, ?_, .inl rfl, ?_, fun node out => outside node fun member => out (order.mem_iff.mp member)⟩
                · have step : skewHeapMerge comp depth entries aRight.root? (some b) = _ := returns
                  change skewHeapMerge comp (depth + 1) entries (some a) (some b) = _
                  simp only [skewHeapMerge, if_pos before, atA, step, Option.bind_eq_bind, Option.bind_some]
                  rfl
                · rw [if_pos before]
                  exact whole
              · have order : List.Perm (b :: (bLeft.toList ++ ((BinTree.node aLeft a aRight).toList ++ bRight.toList)))
                    ((BinTree.node aLeft a aRight).toList ++ (BinTree.node bLeft b bRight).toList) := by
                  refine List.Perm.trans (List.Perm.cons b ?_) List.perm_middle.symm
                  rw [← List.append_assoc, ← List.append_assoc]
                  exact List.Perm.append_right _ List.perm_append_comm
                have apart := order.nodup_iff.mpr distinct
                have inner := (List.nodup_append.mp (List.nodup_cons.mp apart).2).2.1
                obtain ⟨after, up, returns, _, linked, frame⟩ :=
                  ih (.node aLeft a aRight) bRight upLeft (some b) ⟨atA, inALeft, inARight⟩ inBRight inner
                    (by simp only [BinTree.toList, List.length_cons, List.length_append]; omega)
                obtain ⟨whole, outside⟩ := attach_merged entries after b bLeft _ _ upRight up
                  (skew_heap_merge_perm comp (.node aLeft a aRight) bRight) apart (by rw [atB]) inBLeft linked frame
                refine ⟨_, upRight, ?_, .inr rfl, ?_, fun node out => outside node fun member => out (order.mem_iff.mp member)⟩
                · have step : skewHeapMerge comp depth entries (some a) bRight.root? = _ := returns
                  change skewHeapMerge comp (depth + 1) entries (some a) (some b) = _
                  simp only [skewHeapMerge, if_neg before, atB, step, Option.bind_eq_bind, Option.bind_some]
                  rfl
                · rw [if_neg before]
                  exact whole

-- What skew_heap_remove has done to a tree that contains b once rep is in the
-- place of b: below its root the last write is that of the parent of b.
structure Unhooked (comp : P → P → Int) (entries after : Entries P) (b : P) (up : Option P) (tree : BinTree P) (rep : Option P) :
    Prop where
  atRoot : tree.root? = some b → (entries b).parent = up ∧ rep = (Sched.skewHeapRemove comp b tree).root? ∧
    Linked after up (Sched.skewHeapRemove comp b tree) ∧ ∀ node, node ∉ tree.toList → after node = entries node
  below : tree.root? ≠ some b → ∃ p, (entries b).parent = some p ∧ (Sched.skewHeapRemove comp b tree).root? = tree.root? ∧
    Linked (replaceChild after p b rep) up (Sched.skewHeapRemove comp b tree) ∧
    ∀ node, node ∉ tree.toList → replaceChild after p b rep node = entries node

theorem replace_child_elsewhere (entries : Entries P) (p b node : P) (rep : Option P) (apart : node ≠ p) :
    replaceChild entries p b rep node = entries node := by
  unfold replaceChild
  split <;> rw [Function.update_of_ne apart]

theorem remove_root_below (comp : P → P → Int) (b x : P) (left right : BinTree P) (apart : x ≠ b) :
    Sched.skewHeapRemove comp b (.node left x right) =
      .node (Sched.skewHeapRemove comp b left) x (Sched.skewHeapRemove comp b right) := by
  rw [Sched.skewHeapRemove, if_neg apart]

-- b is in the left subtree of x.
theorem Unhooked.inLeft {comp : P → P → Int} {entries after : Entries P} {b x : P} {up rep : Option P} {left right : BinTree P}
    (linked : Linked entries up (.node left x right)) (distinct : (BinTree.node left x right).toList.Nodup)
    (inside : b ∈ left.toList) (inner : Unhooked comp entries after b (some x) left rep) :
    Unhooked comp entries after b up (.node left x right) rep := by
  obtain ⟨atX, _, inRight⟩ := linked
  obtain ⟨outside, below⟩ := List.nodup_cons.mp distinct
  obtain ⟨leftDistinct, _, separate⟩ := List.nodup_append.mp below
  simp only [List.mem_append, not_or] at outside
  have apart : x ≠ b := fun same => outside.1 (same ▸ inside)
  have notRight : b ∉ right.toList := fun also => separate b inside b also rfl
  have away : ∀ node ∈ right.toList, node ∉ left.toList := fun node inR inL => separate node inL node inR rfl
  refine ⟨fun top => absurd (Option.some.inj top) apart, fun _ => ?_⟩
  rw [remove_root_below comp b x left right apart, skew_heap_remove_absent comp b right notRight]
  by_cases top : left.root? = some b
  · obtain ⟨parent, repIs, rest, frame⟩ := inner.atRoot top
    have leftOfX : (after x).left = some b := by rw [frame x outside.1, atX]; exact top
    have written : replaceChild after x b rep x = ⟨up, rep, right.root?⟩ := by
      rw [replaceChild, if_pos leftOfX, Function.update_self, frame x outside.1, atX]
    refine ⟨x, parent, rfl, ⟨?_, ?_, ?_⟩, ?_⟩
    · rw [written, repIs]
    · apply linked_congr after _ _ _ _ rest
      intro node member
      apply replace_child_elsewhere
      exact fun same => outside.1 (same ▸ skew_heap_remove_mem comp b node left member)
    · apply linked_congr entries _ right _ _ inRight
      intro node member
      rw [replace_child_elsewhere after x b node rep fun same => outside.2 (same ▸ member), frame node (away node member)]
    · intro node out
      simp only [BinTree.toList, List.mem_cons, List.mem_append, not_or] at out
      rw [replace_child_elsewhere after x b node rep out.1, frame node out.2.1]
  · obtain ⟨p, parent, root, rest, frame⟩ := inner.below top
    refine ⟨p, parent, rfl, ⟨?_, rest, ?_⟩, ?_⟩
    · rw [frame x outside.1, atX, root]
    · exact linked_congr entries _ right _ (fun node member => frame node (away node member)) inRight
    · intro node out
      simp only [BinTree.toList, List.mem_cons, List.mem_append, not_or] at out
      exact frame node out.2.1

theorem Unhooked.inRight {comp : P → P → Int} {entries after : Entries P} {b x : P} {up rep : Option P} {left right : BinTree P}
    (linked : Linked entries up (.node left x right)) (distinct : (BinTree.node left x right).toList.Nodup)
    (inside : b ∈ right.toList) (inner : Unhooked comp entries after b (some x) right rep) :
    Unhooked comp entries after b up (.node left x right) rep := by
  obtain ⟨atX, inLeft, _⟩ := linked
  obtain ⟨outside, below⟩ := List.nodup_cons.mp distinct
  obtain ⟨_, _, separate⟩ := List.nodup_append.mp below
  simp only [List.mem_append, not_or] at outside
  have apart : x ≠ b := fun same => outside.2 (same ▸ inside)
  have notLeft : b ∉ left.toList := fun also => separate b also b inside rfl
  have away : ∀ node ∈ left.toList, node ∉ right.toList := fun node inL inR => separate node inL node inR rfl
  refine ⟨fun top => absurd (Option.some.inj top) apart, fun _ => ?_⟩
  rw [remove_root_below comp b x left right apart, skew_heap_remove_absent comp b left notLeft]
  by_cases top : right.root? = some b
  · obtain ⟨parent, repIs, rest, frame⟩ := inner.atRoot top
    have leftOfX : (after x).left ≠ some b := by
      rw [frame x outside.2, atX]
      exact fun same => notLeft (left.root_mem b same)
    have written : replaceChild after x b rep x = ⟨up, left.root?, rep⟩ := by
      rw [replaceChild, if_neg leftOfX, Function.update_self, frame x outside.2, atX]
    refine ⟨x, parent, rfl, ⟨?_, ?_, ?_⟩, ?_⟩
    · rw [written, repIs]
    · apply linked_congr entries _ left _ _ inLeft
      intro node member
      rw [replace_child_elsewhere after x b node rep fun same => outside.1 (same ▸ member), frame node (away node member)]
    · apply linked_congr after _ _ _ _ rest
      intro node member
      apply replace_child_elsewhere
      exact fun same => outside.2 (same ▸ skew_heap_remove_mem comp b node right member)
    · intro node out
      simp only [BinTree.toList, List.mem_cons, List.mem_append, not_or] at out
      rw [replace_child_elsewhere after x b node rep out.1, frame node out.2.2]
  · obtain ⟨p, parent, root, rest, frame⟩ := inner.below top
    refine ⟨p, parent, rfl, ⟨?_, ?_, rest⟩, ?_⟩
    · rw [frame x outside.2, atX, root]
    · exact linked_congr entries _ left _ (fun node member => frame node (away node member)) inLeft
    · intro node out
      simp only [BinTree.toList, List.mem_cons, List.mem_append, not_or] at out
      exact frame node out.2.2

-- By induction down to b, where skew_heap_merge_linked gives rep.
theorem skew_heap_unhook (comp : P → P → Int) (depth : Nat) (entries : Entries P) (b : P) (tree : BinTree P) (up : Option P)
    (linked : Linked entries up tree) (distinct : tree.toList.Nodup) (inside : b ∈ tree.toList) (deep : tree.toList.length < depth) :
    ∃ rep merged, skewHeapMerge comp depth entries (entries b).left (entries b).right = some (rep, merged) ∧
      Unhooked comp entries (setParent merged rep (entries b).parent) b up tree rep := by
  induction tree generalizing up with
  | nil => exact absurd inside List.not_mem_nil
  | node left x right ihLeft ihRight =>
      obtain ⟨atX, inLeft, inRight⟩ := linked
      obtain ⟨outside, below⟩ := List.nodup_cons.mp distinct
      obtain ⟨leftDistinct, rightDistinct, _⟩ := List.nodup_append.mp below
      have shorter : left.toList.length + right.toList.length < depth := by
        simp only [BinTree.toList, List.length_cons, List.length_append] at deep
        omega
      by_cases here : x = b
      · subst here
        obtain ⟨merged, old, returns, _, whole, frame⟩ :=
          skew_heap_merge_linked comp depth entries left right (some x) (some x) inLeft inRight below shorter
        have same := skew_heap_merge_perm comp left right
        refine ⟨_, merged, by rw [atX]; exact returns, ⟨fun _ => ⟨by rw [atX], ?_, ?_, ?_⟩, fun other => absurd rfl other⟩⟩
        · rw [skew_heap_remove_root]
        · rw [skew_heap_remove_root, atX]
          exact set_parent_linked merged _ old up (same.nodup_iff.mpr below) whole
        · intro node out
          simp only [BinTree.toList, List.mem_cons, not_or] at out
          rw [set_parent_elsewhere]
          · exact frame node out.2
          · exact fun top => out.2 (same.mem_iff.mp (BinTree.root_mem _ node top))
      · simp only [BinTree.toList, List.mem_cons, List.mem_append] at inside
        rcases inside with same | inL | inR
        · exact absurd same.symm here
        · obtain ⟨rep, merged, returns, unhooked⟩ := ihLeft (some x) inLeft leftDistinct inL (by omega)
          exact ⟨rep, merged, returns, unhooked.inLeft ⟨atX, inLeft, inRight⟩ distinct inL⟩
        · obtain ⟨rep, merged, returns, unhooked⟩ := ihRight (some x) inRight rightDistinct inR (by omega)
          exact ⟨rep, merged, returns, unhooked.inRight ⟨atX, inLeft, inRight⟩ distinct inR⟩

-- The pointers after skew_heap_remove spell out the tree without b.
theorem skew_heap_remove_linked (comp : P → P → Int) (depth : Nat) (entries : Entries P) (b : P) (tree : BinTree P)
    (linked : Linked entries none tree) (distinct : tree.toList.Nodup) (inside : b ∈ tree.toList) (deep : tree.toList.length < depth) :
    ∃ after, skewHeapRemove comp depth entries tree.root? b = some ((Sched.skewHeapRemove comp b tree).root?, after) ∧
      Linked after none (Sched.skewHeapRemove comp b tree) ∧ ∀ node, node ∉ tree.toList → after node = entries node := by
  obtain ⟨rep, merged, returns, unhooked⟩ := skew_heap_unhook comp depth entries b tree none linked distinct inside deep
  by_cases top : tree.root? = some b
  · obtain ⟨parent, repIs, whole, frame⟩ := unhooked.atRoot top
    rw [parent] at whole frame
    refine ⟨_, ?_, whole, frame⟩
    rw [← repIs]
    simp [skewHeapRemove, returns, parent]
  · obtain ⟨p, parent, root, whole, frame⟩ := unhooked.below top
    rw [parent] at whole frame
    refine ⟨_, ?_, whole, frame⟩
    rw [root]
    simp [skewHeapRemove, returns, parent]

-- The tree that the pointers from heap on spell out, with its nodes.
structure HeapTree (entries : Entries P) (le : P → P → Prop) (heap : Option P) (nodes : Finset P) (tree : BinTree P) : Prop where
  top : heap = tree.root?
  linked : Linked entries none tree
  distinct : tree.toList.Nodup
  ordered : tree.HeapOrdered le
  members : ∀ node, node ∈ nodes ↔ node ∈ tree.toList

def IsHeap (entries : Entries P) (le : P → P → Prop) (heap : Option P) (nodes : Finset P) : Prop :=
  ∃ tree, HeapTree entries le heap nodes tree

-- The same said of each pointer.
structure PointersSound (entries : Entries P) (le : P → P → Prop) (heap : Option P) (nodes : Finset P) : Prop where
  root : ∀ node, heap = some node → node ∈ nodes ∧ (entries node).parent = none
  child : ∀ node ∈ nodes, ∀ child, (entries node).left = some child ∨ (entries node).right = some child →
    child ∈ nodes ∧ (entries child).parent = some node ∧ le node child

omit [DecidableEq P] in
theorem HeapTree.pointers {entries : Entries P} {le : P → P → Prop} {heap : Option P} {nodes : Finset P} {tree : BinTree P}
    (here : HeapTree entries le heap nodes tree) : PointersSound entries le heap nodes where
  root := by
    intro node top
    have isRoot := here.top.symm.trans top
    exact ⟨(here.members node).mpr (tree.root_mem node isRoot), linked_root_parent entries tree none node here.linked isRoot⟩
  child := by
    intro node member child under
    have inside := (here.members node).mp member
    obtain ⟨below, named⟩ := linked_child entries tree none node child here.linked inside under
    exact ⟨(here.members child).mpr below, named, linked_ordered_child entries le tree none node child here.linked here.ordered inside under⟩

theorem HeapTree.card {entries : Entries P} {le : P → P → Prop} {heap : Option P} {nodes : Finset P} {tree : BinTree P}
    (here : HeapTree entries le heap nodes tree) : tree.toList.length = nodes.card := by
  have same : tree.toList.toFinset = nodes := by
    ext node
    rw [List.mem_toFinset, here.members]
  rw [← same, List.toFinset_card_of_nodup here.distinct]

theorem merge_heaps (comp : P → P → Int) (le : P → P → Prop) (entries : Entries P) (a b : Option P) (first second : Finset P)
    (treeA treeB : BinTree P) (inA : HeapTree entries le a first treeA) (inB : HeapTree entries le b second treeB)
    (apart : Disjoint first second) (lawful : CompLe comp le (· ∈ first ∪ second)) (depth : Nat)
    (deep : first.card + second.card < depth) :
    ∃ heap after, skewHeapMerge comp depth entries a b = some (heap, after) ∧
      HeapTree after le heap (first ∪ second) (Sched.skewHeapMerge comp treeA treeB) ∧
      ∀ node, node ∉ first ∪ second → after node = entries node := by
  have distinct : (treeA.toList ++ treeB.toList).Nodup := by
    refine List.nodup_append.mpr ⟨inA.distinct, inB.distinct, ?_⟩
    rintro node memberA other memberB rfl
    exact Finset.disjoint_left.mp apart ((inA.members node).mpr memberA) ((inB.members node).mpr memberB)
  have members : ∀ node, node ∈ first ∪ second ↔ node ∈ treeA.toList ++ treeB.toList := by
    intro node
    rw [Finset.mem_union, List.mem_append, inA.members, inB.members]
  rw [← inA.card, ← inB.card] at deep
  obtain ⟨after, up, returns, roots, linked, frame⟩ :=
    skew_heap_merge_linked comp depth entries treeA treeB none none inA.linked inB.linked distinct deep
  have top : up = none := roots.elim id id
  have same := skew_heap_merge_perm comp treeA treeB
  refine ⟨_, after, by rw [inA.top, inB.top]; exact returns, ⟨rfl, top ▸ linked, same.nodup_iff.mpr distinct, ?_, ?_⟩, ?_⟩
  · apply skew_heap_merge_ordered comp le _ lawful treeA treeB _ _ inA.ordered inB.ordered
    · exact fun node member => (members node).mpr (List.mem_append_left _ member)
    · exact fun node member => (members node).mpr (List.mem_append_right _ member)
  · intro node
    rw [members, same.mem_iff]
  · exact fun node out => frame node fun member => out ((members node).mpr member)

theorem fresh_heap (entries : Entries P) (le : P → P → Prop) (b : P) :
    HeapTree (skewHeapInit entries b) le (some b) {b} (.node .nil b .nil) where
  top := rfl
  linked := ⟨by simp [skewHeapInit, BinTree.root?], trivial, trivial⟩
  distinct := by simp [BinTree.toList]
  ordered := by simp [BinTree.HeapOrdered, BinTree.toList]
  members := by simp [BinTree.toList]

theorem remove_heap (comp : P → P → Int) (le : P → P → Prop) (entries : Entries P) (a : Option P) (b : P) (nodes : Finset P)
    (tree : BinTree P) (here : HeapTree entries le a nodes tree) (inside : b ∈ nodes) (lawful : CompLe comp le (· ∈ nodes))
    (depth : Nat) (deep : nodes.card < depth) :
    ∃ heap after, skewHeapRemove comp depth entries a b = some (heap, after) ∧
      HeapTree after le heap (nodes.erase b) (Sched.skewHeapRemove comp b tree) ∧
      ∀ node, node ∉ nodes → after node = entries node := by
  have member := (here.members b).mp inside
  rw [← here.card] at deep
  obtain ⟨after, returns, linked, frame⟩ := skew_heap_remove_linked comp depth entries b tree here.linked here.distinct member deep
  have same := skew_heap_remove_perm comp b tree here.distinct member
  obtain ⟨gone, distinct⟩ := List.nodup_cons.mp (same.nodup_iff.mpr here.distinct)
  refine ⟨_, after, by rw [here.top]; exact returns, ⟨rfl, linked, distinct, ?_, ?_⟩, ?_⟩
  · exact skew_heap_remove_ordered comp le _ lawful b tree (fun node below => (here.members node).mpr below) here.ordered
  · intro node
    rw [Finset.mem_erase, here.members, ← same.mem_iff, List.mem_cons]
    constructor
    · rintro ⟨other, either⟩
      exact either.resolve_left other
    · exact fun rest => ⟨fun removed => gone (removed ▸ rest), .inr rest⟩
  · exact fun node out => frame node fun below => out ((here.members node).mpr below)

-- What an operation on heaps owes: a heap of these nodes and no other write.
def Yields (le : P → P → Prop) (entries : Entries P) (touched nodes : Finset P) (result : Option (Option P × Entries P)) : Prop :=
  ∃ heap after, result = some (heap, after) ∧ IsHeap after le heap nodes ∧ PointersSound after le heap nodes ∧
    ∀ node, node ∉ touched → after node = entries node

theorem skew_heap_operations_preserve (comp : P → P → Int) (le : P → P → Prop) (entries : Entries P) (a : Option P)
    (first : Finset P) (inA : IsHeap entries le a first) (depth : Nat) :
    (∀ b second, IsHeap entries le b second → Disjoint first second → CompLe comp le (· ∈ first ∪ second) →
      first.card + second.card < depth → Yields le entries (first ∪ second) (first ∪ second) (skewHeapMerge comp depth entries a b)) ∧
    (∀ b, b ∉ first → CompLe comp le (· ∈ insert b first) → first.card + 1 < depth →
      Yields le entries (insert b first) (insert b first) (skewHeapInsert comp depth entries a b)) ∧
    (∀ b, b ∈ first → CompLe comp le (· ∈ first) → first.card < depth →
      Yields le entries first (first.erase b) (skewHeapRemove comp depth entries a b)) := by
  obtain ⟨treeA, inA⟩ := inA
  refine ⟨?_, ?_, ?_⟩
  · rintro b second ⟨treeB, inB⟩ apart lawful deep
    obtain ⟨heap, after, returns, merged, frame⟩ := merge_heaps comp le entries a b first second treeA treeB inA inB apart lawful depth deep
    exact ⟨heap, after, returns, ⟨_, merged⟩, merged.pointers, frame⟩
  · intro b fresh lawful deep
    have apart : Disjoint first {b} := Finset.disjoint_singleton_right.mpr fresh
    have union : first ∪ {b} = insert b first := by rw [Finset.union_comm, Finset.singleton_union]
    have kept : ∀ node, node ≠ b → skewHeapInit entries b node = entries node := fun node other => Function.update_of_ne other _ _
    have moved : HeapTree (skewHeapInit entries b) le a first treeA := by
      refine ⟨inA.top, linked_congr entries _ treeA none ?_ inA.linked, inA.distinct, inA.ordered, inA.members⟩
      exact fun node member => kept node fun same => fresh (same ▸ (inA.members node).mpr member)
    obtain ⟨heap, after, returns, merged, frame⟩ := merge_heaps comp le _ a (some b) first {b} treeA _ moved
      (fresh_heap entries le b) apart (by rw [union]; exact lawful) depth (by rw [Finset.card_singleton]; exact deep)
    rw [union] at merged frame
    refine ⟨heap, after, returns, ⟨_, merged⟩, merged.pointers, fun node out => ?_⟩
    rw [frame node out, kept node fun same => out (same ▸ Finset.mem_insert_self b first)]
  · intro b inside lawful deep
    obtain ⟨heap, after, returns, removed, frame⟩ := remove_heap comp le entries a b first treeA inA inside lawful depth deep
    exact ⟨heap, after, returns, ⟨_, removed⟩, removed.pointers, frame⟩

def compareNat (a b : Nat) : Int := if a < b then -1 else if a = b then 0 else 1

theorem compare_nat_le (inUse : Nat → Prop) : CompLe compareNat (· ≤ ·) inUse where
  before := by
    intro a b _ _ smaller
    unfold compareNat at smaller
    split at smaller <;> omega
  after := by
    intro a b _ _ larger
    unfold compareNat at larger
    split at larger <;> omega
  trans := fun _ _ _ _ _ _ first second => Nat.le_trans first second

-- 1 over 2 and 3, and 4 under 2; a second heap has 0 over 6.
def fourEntries (node : Nat) : TreeLinks Nat :=
  match node with
  | 0 => ⟨none, none, some 6⟩
  | 1 => ⟨none, some 2, some 3⟩
  | 2 => ⟨some 1, some 4, none⟩
  | 3 => ⟨some 1, none, none⟩
  | 4 => ⟨some 2, none, none⟩
  | 6 => ⟨some 0, none, none⟩
  | _ => ⟨none, none, none⟩

theorem four_entries_heap : IsHeap fourEntries (· ≤ ·) (some 1) {1, 2, 3, 4} :=
  ⟨.node (.node (.node .nil 4 .nil) 2 .nil) 1 (.node .nil 3 .nil), rfl, ⟨rfl, ⟨rfl, ⟨rfl, trivial, trivial⟩, trivial⟩, rfl, trivial, trivial⟩,
    by decide, by simp [BinTree.HeapOrdered, BinTree.toList], by
      intro node
      simp only [BinTree.toList, Finset.mem_insert, Finset.mem_singleton, List.cons_append, List.nil_append, List.append_nil, List.mem_cons,
        List.not_mem_nil, or_false]
      omega⟩

theorem two_entries_heap : IsHeap fourEntries (· ≤ ·) (some 0) {0, 6} :=
  ⟨.node .nil 0 (.node .nil 6 .nil), rfl, ⟨rfl, trivial, rfl, trivial, trivial⟩, by decide, by simp [BinTree.HeapOrdered, BinTree.toList], by
    intro node
    simp [BinTree.toList]⟩

theorem skew_heap_operations_preserve_four :
    Yields (· ≤ ·) fourEntries {0, 1, 2, 3, 4, 6} ({0, 1, 2, 3, 4, 6} : Finset Nat) (skewHeapMerge compareNat 7 fourEntries (some 1) (some 0)) ∧
      Yields (· ≤ ·) fourEntries {5, 1, 2, 3, 4} {5, 1, 2, 3, 4} (skewHeapInsert compareNat 6 fourEntries (some 1) 5) ∧
      Yields (· ≤ ·) fourEntries {1, 2, 3, 4} {1, 3, 4} (skewHeapRemove compareNat 6 fourEntries (some 1) 2) := by
  have seven := skew_heap_operations_preserve compareNat (· ≤ ·) fourEntries (some 1) {1, 2, 3, 4} four_entries_heap 7
  have six := skew_heap_operations_preserve compareNat (· ≤ ·) fourEntries (some 1) {1, 2, 3, 4} four_entries_heap 6
  have union : ({1, 2, 3, 4} ∪ {0, 6} : Finset Nat) = {0, 1, 2, 3, 4, 6} := by decide
  refine ⟨?_, six.2.1 5 (by decide) (compare_nat_le _) (by decide), ?_⟩
  · rw [← union]
    exact seven.1 (some 0) {0, 6} two_entries_heap (by decide) (compare_nat_le _) (by decide)
  · exact six.2.2 2 (by decide) (compare_nat_le _) (by decide)

end Ucore.Sched.SkewEntry
