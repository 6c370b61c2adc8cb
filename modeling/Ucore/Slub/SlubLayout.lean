import Ucore.Slub.Slub

set_option autoImplicit false

namespace Ucore.Slub

open Ucore.Lib

open Ucore.Lib.Memory

theorem request_idx_spec (size idx : Nat) (found : requestIdx size = some idx) : idx < objCnt ∧ 1 ≤ size ∧ size ≤ objSize idx ∧ (8 < size → 1 ≤ idx) := by
  rw [requestIdx] at found
  split at found
  · cases found
  · rename_i valid
    have member := List.mem_of_find?_eq_some found
    have fits := List.find?_some found
    simp only [decide_eq_true_eq] at fits
    refine ⟨List.mem_range.mp member, by omega, fits, fun large => ?_⟩
    by_contra zero
    obtain rfl : idx = 0 := by omega
    simp only [objSize, objSizes, List.getD_cons_zero] at fits
    omega

-- From the second cache on an object has room for a list node.
theorem class_size (idx : Nat) (known : idx < objCnt) (second : 1 ≤ idx) : 16 ≤ objSize idx ∧ objSize idx % 16 = 0 := by
  have all : ∀ i < objCnt, 1 ≤ i → 16 ≤ objSize i ∧ objSize i % 16 = 0 := by decide
  exact all idx known second

theorem class_word (idx : Nat) (known : idx < objCnt) : 8 ≤ objSize idx ∧ objSize idx % 8 = 0 := by
  have all : ∀ i < objCnt, 8 ≤ objSize i ∧ objSize i % 8 = 0 := by decide
  exact all idx known

-- The objects of a slab, as slab_alloc cuts them.
def objectAt (idx slab k : Nat) : Nat := slab + slabHeaderSize + k * objSize idx
def objects (idx slab : Nat) : List Nat := (List.range (objsPerSlab idx)).map (objectAt idx slab)

theorem object_range (idx slab obj : Nat) (known : idx < objCnt) (second : 1 ≤ idx) (aligned : slab % pageSize = 0) (member : obj ∈ objects idx slab) :
    slab + slabHeaderSize ≤ obj ∧ obj + objSize idx ≤ slab + pageSize ∧ obj % 16 = 8 := by
  obtain ⟨k, inside, rfl⟩ := List.mem_map.mp member
  obtain ⟨_, even⟩ := class_size idx known second
  have below : (k + 1) * objSize idx ≤ pageSize - slabHeaderSize :=
    Nat.le_trans (Nat.mul_le_mul_right _ (List.mem_range.mp inside)) (Nat.div_mul_le_self _ _)
  have product : k * objSize idx % 16 = 0 := by rw [Nat.mul_mod, even, Nat.mul_zero, Nat.zero_mod]
  rw [Nat.add_mul, Nat.one_mul] at below
  simp only [objectAt, pageSize, slabHeaderSize] at below aligned ⊢
  omega

theorem objects_apart (idx slab first second : Nat) (left : first ∈ objects idx slab) (right : second ∈ objects idx slab) (other : first ≠ second) :
    first + objSize idx ≤ second ∨ second + objSize idx ≤ first := by
  obtain ⟨j, _, rfl⟩ := List.mem_map.mp left
  obtain ⟨k, _, rfl⟩ := List.mem_map.mp right
  have differ : j ≠ k := fun same => other (by rw [same])
  rcases Nat.lt_or_gt_of_ne differ with less | more
  · have bound := Nat.mul_le_mul_right (objSize idx) (Nat.succ_le_of_lt less)
    rw [Nat.succ_mul] at bound
    simp only [objectAt]
    omega
  · have bound := Nat.mul_le_mul_right (objSize idx) (Nat.succ_le_of_lt more)
    rw [Nat.succ_mul] at bound
    simp only [objectAt]
    omega

theorem objects_nodup (idx slab : Nat) (known : idx < objCnt) : (objects idx slab).Nodup := by
  have wide := (class_word idx known).1
  refine List.Nodup.map_on (fun j _ k _ same => ?_) List.nodup_range
  have products : j * objSize idx = k * objSize idx := Nat.add_left_cancel same
  exact Nat.eq_of_mul_eq_mul_right (by omega) products

-- The slabs of each cache: whole pages, each in one cache, away from the caches themselves.
structure Layout (caches : Nat) (slabs : Nat → List Nat) : Prop where
  none8 : slabs 0 = []
  aligned : ∀ idx < objCnt, ∀ slab ∈ slabs idx, slab % pageSize = 0
  away : ∀ idx < objCnt, ∀ slab ∈ slabs idx, slab + pageSize ≤ caches ∨ cacheAt caches objCnt ≤ slab
  nodup : ∀ idx < objCnt, (slabs idx).Nodup
  apart : ∀ i < objCnt, ∀ j < objCnt, ∀ slab, slab ∈ slabs i → slab ∈ slabs j → i = j

theorem layout_second (caches : Nat) (slabs : Nat → List Nat) (layout : Layout caches slabs) (idx slab : Nat) (member : slab ∈ slabs idx) : 1 ≤ idx := by
  by_contra zero
  obtain rfl : idx = 0 := by omega
  simp [layout.none8] at member

def allObjects (slabs : Nat → List Nat) (idx : Nat) : List Nat := (slabs idx).flatMap (objects idx)

-- Two objects with a common byte are the same object of the same cache.
theorem object_unique (caches : Nat) (slabs : Nat → List Nat) (layout : Layout caches slabs) (i j first second byte : Nat) (known : i < objCnt)
    (also : j < objCnt) (left : first ∈ allObjects slabs i) (right : second ∈ allObjects slabs j) (inFirst : first ≤ byte ∧ byte < first + objSize i)
    (inSecond : second ≤ byte ∧ byte < second + objSize j) : i = j ∧ first = second := by
  obtain ⟨P, inP, ofP⟩ := List.mem_flatMap.mp left
  obtain ⟨Q, inQ, ofQ⟩ := List.mem_flatMap.mp right
  have alignedP := layout.aligned i known P inP
  have alignedQ := layout.aligned j also Q inQ
  have rangeP := object_range i P first known (layout_second caches slabs layout i P inP) alignedP ofP
  have rangeQ := object_range j Q second also (layout_second caches slabs layout j Q inQ) alignedQ ofQ
  have samePage : P = Q := by
    simp only [pageSize, slabHeaderSize] at rangeP rangeQ alignedP alignedQ
    omega
  subst samePage
  obtain rfl : i = j := layout.apart i known j also P inP inQ
  refine ⟨rfl, ?_⟩
  by_contra other
  have := objects_apart i P first second ofP ofQ other
  omega

theorem all_objects_nodup (caches : Nat) (slabs : Nat → List Nat) (layout : Layout caches slabs) (idx : Nat) (known : idx < objCnt) :
    (allObjects slabs idx).Nodup := by
  refine List.nodup_flatMap.mpr ⟨fun slab _ => objects_nodup idx slab known, (layout.nodup idx known).imp_of_mem fun {P Q} inP inQ other obj ofP ofQ => other ?_⟩
  have alignedP := layout.aligned idx known P inP
  have alignedQ := layout.aligned idx known Q inQ
  have rangeP := object_range idx P obj known (layout_second caches slabs layout idx P inP) alignedP ofP
  have rangeQ := object_range idx Q obj known (layout_second caches slabs layout idx Q inQ) alignedQ ofQ
  have wide := (class_word idx known).1
  simp only [pageSize, slabHeaderSize] at rangeP rangeQ alignedP alignedQ
  omega

-- The words of a cache: its own, the headers of its slabs and the nodes of its free objects.
def Touch (caches idx : Nat) (slabs free : List Nat) (a : Nat) : Prop :=
  (cacheAt caches idx ≤ a ∧ a + 8 ≤ cacheAt caches idx + cacheBytes) ∨ (∃ slab ∈ slabs, slab ≤ a ∧ a + 8 ≤ slab + slabHeaderSize) ∨ NodeWord free a

theorem touch_own (caches idx : Nat) (slabs free : List Nat) (offset : Nat) (inside : offset + 8 ≤ cacheBytes) :
    Touch caches idx slabs free (cacheAt caches idx + offset) := .inl ⟨Nat.le_add_right _ _, by omega⟩

theorem touch_header (caches idx : Nat) (slabs free : List Nat) (slab offset : Nat) (member : slab ∈ slabs) (inside : offset + 8 ≤ slabHeaderSize) :
    Touch caches idx slabs free (slab + offset) := .inr (.inl ⟨slab, member, Nat.le_add_right _ _, by omega⟩)

theorem touch_mono (caches idx : Nat) (slabs free moreSlabs moreFree : List Nat) (slabsIn : ∀ slab ∈ slabs, slab ∈ moreSlabs)
    (freeIn : ∀ obj ∈ free, obj ∈ moreFree) (a : Nat) (touched : Touch caches idx slabs free a) : Touch caches idx moreSlabs moreFree a := by
  rcases touched with own | ⟨slab, member, header⟩ | ⟨node, member, part⟩
  · exact .inl own
  · exact .inr (.inl ⟨slab, slabsIn slab member, header⟩)
  · exact .inr (.inr ⟨node, freeIn node member, part⟩)

theorem cache_below (caches i j : Nat) (less : i < j) : cacheAt caches i + cacheBytes ≤ cacheAt caches j := by
  simp only [cacheAt, cacheBytes]
  omega

section Apart

variable (caches : Nat) (slabs : Nat → List Nat) (layout : Layout caches slabs)

include layout

theorem object_place (idx obj : Nat) (known : idx < objCnt) (member : obj ∈ allObjects slabs idx) :
    ∃ slab ∈ slabs idx, obj ∈ objects idx slab ∧ slab % 4096 = 0 ∧ (slab + 4096 ≤ caches ∨ cacheAt caches objCnt ≤ slab) ∧ slab + 40 ≤ obj ∧
      obj + objSize idx ≤ slab + 4096 ∧ obj % 16 = 8 ∧ 16 ≤ objSize idx := by
  obtain ⟨slab, inside, part⟩ := List.mem_flatMap.mp member
  have second := layout_second caches slabs layout idx slab inside
  have aligned := layout.aligned idx known slab inside
  obtain ⟨lower, upper, even⟩ := object_range idx slab obj known second aligned part
  exact ⟨slab, inside, part, aligned, layout.away idx known slab inside, lower, upper, even, (class_size idx known second).1⟩

-- What a cache touches is of no object that is not on its free list.
theorem touch_object (i j : Nat) (free : List Nat) (obj a : Nat) (known : i < objCnt) (also : j < objCnt) (freeIn : ∀ n ∈ free, n ∈ allObjects slabs i)
    (member : obj ∈ allObjects slabs j) (live : i = j → obj ∉ free) (touched : Touch caches i (slabs i) free a) :
    ¬ (obj < a + 8 ∧ a < obj + objSize j) := by
  intro overlap
  obtain ⟨Q, inQ, ofQ, alignedQ, awayQ, lower, upper, _, room⟩ := object_place caches slabs layout j obj also member
  have top := cache_below caches i objCnt known
  rcases touched with own | ⟨P, inP, header⟩ | ⟨n, inFree, node⟩
  · have above : caches ≤ cacheAt caches i := Nat.le_add_right _ _
    omega
  · have alignedP := layout.aligned i known P inP
    simp only [pageSize, slabHeaderSize] at alignedP header
    omega
  · obtain ⟨P, inP, ofP, alignedP, _, lowerP, upperP, even, roomP⟩ := object_place caches slabs layout i n known (freeIn n inFree)
    have byte : ∃ byte, (n ≤ byte ∧ byte < n + objSize i) ∧ obj ≤ byte ∧ byte < obj + objSize j := ⟨max a obj, by omega, by omega⟩
    obtain ⟨byte, inNode, inObj⟩ := byte
    obtain ⟨same, here⟩ := object_unique caches slabs layout i j n obj byte known also (freeIn n inFree) member inNode inObj
    exact live same (here ▸ inFree)

-- Two caches touch no common word.
theorem touch_apart (i j : Nat) (free others : List Nat) (a : Nat) (known : i < objCnt) (also : j < objCnt) (other : i ≠ j)
    (freeIn : ∀ n ∈ free, n ∈ allObjects slabs i) (othersIn : ∀ n ∈ others, n ∈ allObjects slabs j) (left : Touch caches i (slabs i) free a) :
    ¬ Touch caches j (slabs j) others a := by
  intro right
  have topI := cache_below caches i objCnt known
  have topJ := cache_below caches j objCnt also
  have lowI : caches ≤ cacheAt caches i := Nat.le_add_right _ _
  have lowJ : caches ≤ cacheAt caches j := Nat.le_add_right _ _
  rcases left with ownI | ⟨P, inP, headerP⟩ | ⟨n, inFree, node⟩
  · rcases right with ownJ | ⟨Q, inQ, headerQ⟩ | ⟨n, inOthers, node⟩
    · rcases Nat.lt_or_gt_of_ne other with less | more
      · have := cache_below caches i j less
        omega
      · have := cache_below caches j i more
        omega
    · have awayQ := layout.away j also Q inQ
      simp only [pageSize, slabHeaderSize] at awayQ headerQ
      omega
    · obtain ⟨_, _, _, _, _, _, _, _, room⟩ := object_place caches slabs layout j n also (othersIn n inOthers)
      refine touch_object caches slabs layout i j free n a known also freeIn (othersIn n inOthers) (fun same => absurd same other) (.inl ownI) ?_
      omega
  · rcases right with ownJ | ⟨Q, inQ, headerQ⟩ | ⟨n, inOthers, node⟩
    · have awayP := layout.away i known P inP
      simp only [pageSize, slabHeaderSize] at awayP headerP
      omega
    · have alignedP := layout.aligned i known P inP
      have alignedQ := layout.aligned j also Q inQ
      have samePage : P = Q := by
        simp only [pageSize, slabHeaderSize] at alignedP alignedQ headerP headerQ
        omega
      exact other (layout.apart i known j also P inP (samePage ▸ inQ))
    · obtain ⟨_, _, _, _, _, _, _, _, room⟩ := object_place caches slabs layout j n also (othersIn n inOthers)
      refine touch_object caches slabs layout i j free n a known also freeIn (othersIn n inOthers) (fun same => absurd same other)
        (.inr (.inl ⟨P, inP, headerP⟩)) ?_
      omega
  · obtain ⟨_, _, _, _, _, _, _, _, room⟩ := object_place caches slabs layout i n known (freeIn n inFree)
    refine touch_object caches slabs layout j i others n a also known othersIn (freeIn n inFree) (fun same => absurd same.symm other) right ?_
    omega

end Apart

end Ucore.Slub
