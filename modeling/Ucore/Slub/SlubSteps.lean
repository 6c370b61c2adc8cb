import Ucore.Slub.SlubCaches

set_option autoImplicit false

namespace Ucore.Slub

open Ucore.Lib

open Ucore.Lib.Memory

-- The loop of slab_alloc adds the objects from the k-th on, while nothing touches the fields it reads.
theorem thread_spec (idx cache slab : Nat) (m : Memory) (k rounds fuel : Nat) (nodes : List Nat) (count : k + rounds = objsPerSlab idx) (enough : rounds < fuel)
    (sized : m.word (objSizeOf cache) = objSize idx) (counted : m.word (objsPerSlabOf cache) = objsPerSlab idx)
    (ring : Links.Ring m.links (freeObjList cache) nodes)
    (spaced : Spaced (freeObjList cache :: ((List.range' k rounds).map (objectAt idx slab) ++ nodes)))
    (fresh : (freeObjList cache :: ((List.range' k rounds).map (objectAt idx slab) ++ nodes)).Nodup)
    (outside : ∀ a, NodeWord (freeObjList cache :: ((List.range' k rounds).map (objectAt idx slab) ++ nodes)) a →
      a ≠ objSizeOf cache ∧ a ≠ objsPerSlabOf cache) :
    threadObjects cache fuel k (objectAt idx slab k) m =
      some (((List.range' k rounds).map (objectAt idx slab)).foldl (fun m elm => m.listAdd (freeObjList cache) elm) m) := by
  induction rounds generalizing k m fuel nodes with
  | zero =>
      obtain ⟨n, rfl⟩ := Nat.exists_eq_succ_of_ne_zero (Nat.ne_of_gt enough)
      have stop : ¬ k < m.load (objsPerSlabOf cache) := by
        rw [load, counted]
        omega
      rw [threadObjects, if_neg stop]
      rfl
  | succ r ih =>
      obtain ⟨n, rfl⟩ := Nat.exists_eq_succ_of_ne_zero (Nat.ne_of_gt (Nat.lt_of_le_of_lt (Nat.zero_le _) enough))
      have goesOn : k < m.load (objsPerSlabOf cache) := by
        rw [load, counted]
        omega
      rw [List.range'_succ, List.map_cons, List.cons_append] at spaced fresh outside
      have moved : (freeObjList cache :: ((List.range' (k + 1) r).map (objectAt idx slab) ++ objectAt idx slab k :: nodes)).Perm
          (freeObjList cache :: objectAt idx slab k :: ((List.range' (k + 1) r).map (objectAt idx slab) ++ nodes)) :=
        List.Perm.cons _ List.perm_middle
      have notIn : objectAt idx slab k ∉ freeObjList cache :: nodes := by
        simp only [List.nodup_cons, List.mem_cons, List.mem_append] at fresh ⊢
        tauto
      obtain ⟨added, once⟩ := list_add_spec m (freeObjList cache) (objectAt idx slab k) nodes ring
        (spaced_subset _ _ spaced fun a member => by
          simp only [List.mem_cons, List.mem_append] at member ⊢
          tauto) notIn
      have kept : ∀ a, NodeWord (objectAt idx slab k :: freeObjList cache :: nodes) a → a ≠ objSizeOf cache ∧ a ≠ objsPerSlabOf cache := by
        rintro a ⟨node, member, part⟩
        refine outside a ⟨node, ?_, part⟩
        simp only [List.mem_cons, List.mem_append] at member ⊢
        tauto
      have sizedNext := (once.kept _ fun word => (kept _ word).1 rfl).trans sized
      have countedNext := (once.kept _ fun word => (kept _ word).2 rfl).trans counted
      have onward : objectAt idx slab k + objSize idx = objectAt idx slab (k + 1) := by rw [objectAt, objectAt, Nat.succ_mul, Nat.add_assoc]
      rw [threadObjects, if_pos goesOn]
      simp only [load, sizedNext]
      rw [onward, ih (m.listAdd (freeObjList cache) _) (k + 1) n _ (by omega) (by omega) sizedNext countedNext added
        (spaced_subset _ _ spaced fun a member => moved.mem_iff.mp member) (moved.nodup_iff.mpr fresh) ?_]
      · rfl
      · rintro a ⟨node, member, part⟩
        exact outside a ⟨node, moved.mem_iff.mp member, part⟩

section Counters

variable (caches : Nat) (slabs : Nat → List Nat) (layout : Layout caches slabs) (idx : Nat) (known : idx < objCnt)

include layout known

-- The count of a slab is of no list.
theorem counter_word (slab : Nat) (member : slab ∈ slabs idx) : ¬ NodeWord (slabList (cacheAt caches idx) :: (slabs idx).map slabLink) (freeObjCnt slab) := by
  intro word
  have aligned := layout.aligned idx known slab member
  have header := header_word caches slabs layout idx known slab (slab + 16) member (by omega)
  rcases slab_word caches slabs layout idx known _ word with same | same | ⟨_, _, other, inOther, part⟩
  · exact own_word caches idx known 40 (by decide) (same ▸ header.1)
  · exact own_word caches idx known 48 (by decide) (same ▸ header.1)
  · have alignedOther := layout.aligned idx known other inOther
    simp only [pageSize, freeObjCnt] at aligned alignedOther part
    omega

end Counters

section Calls

variable (caches : Nat) (slabs : Nat → List Nat) (layout : Layout caches slabs) (idx : Nat) (known : idx < objCnt)

include layout known

-- kmalloc unlinks the first free object and counts it in the first slab.
theorem take_object_result (m : Memory) (obj slab : Nat) (free rest : List Nat) (shape : slabs idx = slab :: rest)
    (freeIn : ∀ n ∈ obj :: free, n ∈ allObjects slabs idx) (inv : CacheInv caches idx m (slabs idx) (obj :: free)) :
    takeObject m (cacheAt caches idx) =
        (some obj, (m.listDel obj).store (freeObjCnt slab) (((m.listDel obj).load (freeObjCnt slab) + 2 ^ 64 - 1) % 2 ^ 64)) ∧
      CacheInv caches idx (m.listDel obj) (slabs idx) free ∧ Only (NodeWord (freeObjList (cacheAt caches idx) :: free)) m (m.listDel obj) := by
  have spaced := free_spaced caches slabs layout idx known (obj :: free) freeIn
  have within : ∀ n ∈ free, n ∈ allObjects slabs idx := fun n member => freeIn n (List.mem_cons_of_mem obj member)
  have first := ring_first m _ obj free inv.freeRing
  obtain ⟨ring, only⟩ := list_del_spec m _ obj free inv.freeRing (free_spaced caches slabs layout idx known free within)
  have deleted := free_list_step caches slabs layout idx known m (m.listDel obj) (obj :: free) free within inv only free ring
  have slabRing : Links.Ring (m.listDel obj).links (slabList (cacheAt caches idx)) (slabLink slab :: rest.map slabLink) := by
    have ring := deleted.slabRing
    rwa [shape, List.map_cons] at ring
  have notEmpty : ¬ (m.listDel obj).ListEmpty (slabList (cacheAt caches idx)) := fun empty =>
    List.cons_ne_nil _ _ ((list_empty_iff _ _ _ slabRing).mp empty)
  have firstSlab := ring_first _ _ _ _ slabRing
  refine ⟨?_, deleted, only⟩
  simp only [takeObject, first, if_neg notEmpty, firstSlab, slabLink, Nat.add_sub_cancel]

theorem take_object_spec (m : Memory) (obj : Nat) (free : List Nat) (filled : slabs idx ≠ []) (freeIn : ∀ n ∈ obj :: free, n ∈ allObjects slabs idx)
    (inv : CacheInv caches idx m (slabs idx) (obj :: free)) :
    ∃ after, takeObject m (cacheAt caches idx) = (some obj, after) ∧ CacheInv caches idx after (slabs idx) free ∧
      Only (Touch caches idx (slabs idx) (obj :: free)) m after := by
  have within : ∀ n ∈ free, n ∈ allObjects slabs idx := fun n member => freeIn n (List.mem_cons_of_mem obj member)
  obtain ⟨slab, rest, shape⟩ := List.exists_cons_of_ne_nil filled
  obtain ⟨took, deleted, only⟩ := take_object_result caches slabs layout idx known m obj slab free rest shape freeIn inv
  refine ⟨_, took, ?_, ?_⟩
  · exact count_keep caches slabs layout idx known _ free within slab _ (by simp [shape]) deleted
  · refine only_store _ m _ _ _ (only_mono _ _ _ _ (fun a word => ?_) only) (touch_header caches idx (slabs idx) _ slab 16 (by simp [shape]) (by decide))
    exact touch_mono caches idx (slabs idx) free (slabs idx) (obj :: free) (fun _ member => member) (fun _ member => List.mem_cons_of_mem obj member) a
      (structural_touch caches idx (slabs idx) free a (.inr (.inl word)))

-- kfree links an object of a slab in front of the free ones and counts it in its slab.
theorem kfree_result (m : Memory) (slab obj : Nat) (free : List Nat) (member : slab ∈ slabs idx) (part : obj ∈ objects idx slab) (notFree : obj ∉ free)
    (freeIn : ∀ n ∈ free, n ∈ allObjects slabs idx) (inv : CacheInv caches idx m (slabs idx) free) :
    kfree caches m obj = (m.listAdd (freeObjList (cacheAt caches idx)) obj).store (freeObjCnt slab)
        (((m.listAdd (freeObjList (cacheAt caches idx)) obj).load (freeObjCnt slab) + 1) % 2 ^ 64) ∧
      CacheInv caches idx (m.listAdd (freeObjList (cacheAt caches idx)) obj) (slabs idx) (obj :: free) ∧
      Only (NodeWord (freeObjList (cacheAt caches idx) :: obj :: free)) m (m.listAdd (freeObjList (cacheAt caches idx)) obj) := by
  have aligned := layout.aligned idx known slab member
  obtain ⟨lower, upper, _⟩ := object_range idx slab obj known (layout_second caches slabs layout idx slab member) aligned part
  have wide := (class_word idx known).1
  have within : ∀ n ∈ obj :: free, n ∈ allObjects slabs idx := by
    intro n inside
    rcases List.mem_cons.mp inside with rfl | old
    · exact List.mem_flatMap.mpr ⟨slab, member, part⟩
    · exact freeIn n old
  have spaced := free_spaced caches slabs layout idx known (obj :: free) within
  have notHead : obj ≠ freeObjList (cacheAt caches idx) := by
    intro same
    have word := object_word caches slabs layout idx known (obj :: free) within obj ⟨obj, by simp, .inl rfl⟩
    replace same : obj = cacheAt caches idx + 24 := same
    have own := own_word caches idx known 24 (by decide)
    omega
  obtain ⟨ring, only⟩ := list_add_spec m _ obj free inv.freeRing
    (spaced_subset _ _ spaced fun a inside => by
      simp only [List.mem_cons] at inside ⊢
      tauto) (by simp [notHead, notFree])
  have swapped : ∀ a, NodeWord (obj :: freeObjList (cacheAt caches idx) :: free) a → NodeWord (freeObjList (cacheAt caches idx) :: obj :: free) a := by
    rintro a ⟨node, inside, word⟩
    refine ⟨node, ?_, word⟩
    simp only [List.mem_cons] at inside ⊢
    tauto
  have linkWords := only_mono _ _ _ _ swapped only
  refine ⟨?_, free_list_step caches slabs layout idx known m _ free (obj :: free) within inv linkWords (obj :: free) ring, linkWords⟩
  have start : obj - obj % pageSize = slab := by
    simp only [pageSize, slabHeaderSize] at aligned lower upper ⊢
    omega
  have positive : obj ≠ 0 := by
    simp only [slabHeaderSize] at lower
    omega
  have owner : m.load (cacheOf slab) = cacheAt caches idx := inv.owned slab member
  have inCaches : ¬ (cacheAt caches idx < caches ∨ cacheAt caches objCnt ≤ cacheAt caches idx) := by
    have top := cache_below caches idx objCnt known
    have low : caches ≤ cacheAt caches idx := Nat.le_add_right _ _
    simp only [cacheBytes] at top
    omega
  have inSlab : ¬ (obj < slab + slabHeaderSize ∨ slab + pageSize ≤ obj) := by omega
  simp only [kfree, if_neg positive, start, owner, if_neg inCaches, if_neg inSlab]

theorem kfree_spec (m : Memory) (slab obj : Nat) (free : List Nat) (member : slab ∈ slabs idx) (part : obj ∈ objects idx slab) (notFree : obj ∉ free)
    (freeIn : ∀ n ∈ free, n ∈ allObjects slabs idx) (inv : CacheInv caches idx m (slabs idx) free) :
    CacheInv caches idx (kfree caches m obj) (slabs idx) (obj :: free) ∧ Only (Touch caches idx (slabs idx) (obj :: free)) m (kfree caches m obj) := by
  have within : ∀ n ∈ obj :: free, n ∈ allObjects slabs idx := by
    intro n inside
    rcases List.mem_cons.mp inside with rfl | old
    · exact List.mem_flatMap.mpr ⟨slab, member, part⟩
    · exact freeIn n old
  obtain ⟨result, added, only⟩ := kfree_result caches slabs layout idx known m slab obj free member part notFree freeIn inv
  rw [result]
  refine ⟨count_keep caches slabs layout idx known _ (obj :: free) within slab _ member added, only_store _ m _ _ _ (only_mono _ _ _ _ (fun a word => ?_) only)
    (touch_header caches idx (slabs idx) _ slab 16 member (by decide))⟩
  exact structural_touch caches idx (slabs idx) (obj :: free) a (.inr (.inl word))

end Calls

section Grow

variable (caches : Nat) (slabs more : Nat → List Nat) (layout : Layout caches slabs) (wider : Layout caches more) (idx : Nat) (known : idx < objCnt)
  (slab : Nat) (here : more idx = slab :: slabs idx)

include layout wider known here

-- The header of the new page is not of the structure that there is.
theorem header_fresh (free : List Nat) (freeIn : ∀ n ∈ free, n ∈ allObjects slabs idx) (a : Nat) (structural : Structural caches idx (slabs idx) free a) :
    ¬ (slab ≤ a ∧ a + 8 ≤ slab + 40) := by
  intro inside
  have newSlab : slab ∈ more idx := by simp [here]
  have header := header_word caches more wider idx known slab a newSlab inside
  rcases structural_word caches slabs layout idx known free freeIn a structural with ⟨offset, fits, _, rfl⟩ | ⟨_, beyond | ⟨other, inOther, part⟩⟩
  · exact own_word caches idx known offset fits header.1
  · omega
  · have aligned := wider.aligned idx known slab newSlab
    have alignedOther := layout.aligned idx known other inOther
    have nodup := wider.nodup idx known
    rw [here] at nodup
    have apart : other ≠ slab := fun same => (List.nodup_cons.mp nodup).1 (same ▸ inOther)
    simp only [pageSize] at aligned alignedOther
    omega

-- The first writes of slab_alloc: the header, and its link in the list of slabs.
theorem slab_linked (m : Memory) (free : List Nat) (freeIn : ∀ n ∈ free, n ∈ allObjects slabs idx) (inv : CacheInv caches idx m (slabs idx) free) (count : Nat) :
    ∃ linked, ((((m.store (cacheOf slab) (cacheAt caches idx)).store (slabSizeOf slab) pageSize).store (freeObjCnt slab) count).listAdd
        (slabList (cacheAt caches idx)) (slabLink slab)) = linked ∧ CacheInv caches idx linked (more idx) free ∧
      Only (fun a => (slab ≤ a ∧ a + 8 ≤ slab + 40) ∨ NodeWord (slabList (cacheAt caches idx) :: (more idx).map slabLink) a) m linked ∧
      linked.word (freeObjCnt slab) = count := by
  have newSlab : slab ∈ more idx := by simp [here]
  have headerOnly : Only (fun a => slab ≤ a ∧ a + 8 ≤ slab + 40) m
      (((m.store (cacheOf slab) (cacheAt caches idx)).store (slabSizeOf slab) pageSize).store (freeObjCnt slab) count) := by
    refine only_store _ m _ _ _ (only_store _ m _ _ _ (only_store _ m _ _ _ (only_refl _ m) ?_) ?_) ?_
    · exact ⟨Nat.le_refl slab, by simp [cacheOf]⟩
    · exact ⟨Nat.le_add_right slab 8, by simp [slabSizeOf]⟩
    · exact ⟨Nat.le_add_right slab 16, by simp [freeObjCnt]⟩
  have owner : (((m.store (cacheOf slab) (cacheAt caches idx)).store (slabSizeOf slab) pageSize).store (freeObjCnt slab) count).word slab = cacheAt caches idx := by
    simp [store, cacheOf, slabSizeOf, freeObjCnt]
  have counter : (((m.store (cacheOf slab) (cacheAt caches idx)).store (slabSizeOf slab) pageSize).store (freeObjCnt slab) count).word (freeObjCnt slab) =
      count := Function.update_self _ _ _
  generalize (((m.store (cacheOf slab) (cacheAt caches idx)).store (slabSizeOf slab) pageSize).store (freeObjCnt slab) count) = headed at headerOnly owner counter
  have before := cache_keep caches idx m headed (slabs idx) free _ inv headerOnly (header_fresh caches slabs more layout wider idx known slab here free freeIn)
  have spaced := slab_spaced caches more wider idx known
  have fresh : (slabList (cacheAt caches idx) :: (more idx).map slabLink).Nodup := by
    refine List.nodup_cons.mpr ⟨fun member => ?_, (wider.nodup idx known).map fun a b same => Nat.add_right_cancel same⟩
    obtain ⟨other, inOther, same⟩ := List.mem_map.mp member
    have header := header_word caches more wider idx known other (other + 24) inOther (by omega)
    have own := own_word caches idx known 40 (by decide)
    replace same : other + 24 = cacheAt caches idx + 40 := same
    omega
  rw [here, List.map_cons] at spaced fresh
  obtain ⟨ring, linkOnly⟩ := list_add_spec headed _ (slabLink slab) _ before.slabRing
    (spaced_subset _ _ spaced fun a inside => by
      simp only [List.mem_cons] at inside ⊢
      tauto) (by
      simp only [List.nodup_cons, List.mem_cons] at fresh ⊢
      tauto)
  have words : ∀ a, NodeWord (slabLink slab :: slabList (cacheAt caches idx) :: (slabs idx).map slabLink) a →
      NodeWord (slabList (cacheAt caches idx) :: (more idx).map slabLink) a := by
    rintro a ⟨node, inside, word⟩
    refine ⟨node, ?_, word⟩
    rw [here, List.map_cons]
    simp only [List.mem_cons] at inside ⊢
    tauto
  have linkWords := only_mono _ _ _ _ words linkOnly
  have freeMore : ∀ n ∈ free, n ∈ allObjects more idx := fun n member => by
    rw [allObjects, here, List.flatMap_cons]
    exact List.mem_append_right _ (freeIn n member)
  refine ⟨_, rfl, ⟨?_, ?_, ?_, ?_, fun other member => ?_⟩, ?_, ?_⟩
  · refine (linkWords.kept _ fun word => ?_).trans before.sized
    have own := own_word caches idx known 0 (by decide)
    rcases slab_word caches more wider idx known _ word with same | same | ⟨away, _⟩
    · simp only [objSizeOf] at same
      omega
    · simp only [objSizeOf] at same
      omega
    · exact own away
  · refine (linkWords.kept _ fun word => ?_).trans before.counted
    have own := own_word caches idx known 16 (by decide)
    rcases slab_word caches more wider idx known _ word with same | same | ⟨away, _⟩
    · simp only [objsPerSlabOf] at same
      omega
    · simp only [objsPerSlabOf] at same
      omega
    · exact own away
  · exact ring_frame headed _ _ _ _ linkWords (fun a inFree => lists_apart caches more wider idx known free freeMore a inFree) before.freeRing
  · rw [here, List.map_cons]
    exact ring
  · have kept := linkWords.kept other fun word => by
      have aligned := wider.aligned idx known other member
      have header := header_word caches more wider idx known other other member (by omega)
      rcases slab_word caches more wider idx known _ word with same | same | ⟨_, _, third, inThird, part⟩
      · exact own_word caches idx known 40 (by decide) (same ▸ header.1)
      · exact own_word caches idx known 48 (by decide) (same ▸ header.1)
      · have alignedThird := wider.aligned idx known third inThird
        simp only [pageSize] at aligned alignedThird
        omega
    rw [cacheOf, kept]
    rw [here] at member
    rcases List.mem_cons.mp member with rfl | old
    · exact owner
    · exact before.owned other old
  · exact only_trans _ _ _ _ (only_mono _ _ _ _ (fun a inside => .inl inside) headerOnly) (only_mono _ _ _ _ (fun a word => .inr word) linkWords)
  · exact (linkWords.kept _ (counter_word caches more wider idx known slab newSlab)).trans counter

-- A page becomes the first slab of the cache, and its objects the first of the free ones.
theorem slab_alloc_result (npage page : Nat) (m : Memory) (free : List Nat) (valid : page < npage) (same : slab = page2va page)
    (freeIn : ∀ n ∈ free, n ∈ allObjects slabs idx) (inv : CacheInv caches idx m (slabs idx) free) :
    ∃ linked threaded, slabAlloc npage m (cacheAt caches idx) (some page) = some (true, threaded.store (stateOf (cacheAt caches idx)) cacheAvailable) ∧
      CacheInv caches idx (threaded.store (stateOf (cacheAt caches idx)) cacheAvailable) (more idx) ((objects idx slab).reverse ++ free) ∧
      Only (fun a => (slab ≤ a ∧ a + 8 ≤ slab + 40) ∨ NodeWord (slabList (cacheAt caches idx) :: (more idx).map slabLink) a) m linked ∧
      linked.word (freeObjCnt slab) = m.word (objsPerSlabOf (cacheAt caches idx)) ∧
      Only (NodeWord (freeObjList (cacheAt caches idx) :: (objects idx slab ++ free))) linked threaded := by
  have newSlab : slab ∈ more idx := by simp [here]
  have parts : allObjects more idx = objects idx slab ++ allObjects slabs idx := by rw [allObjects, here, List.flatMap_cons, allObjects]
  obtain ⟨mid, does, linked, first, counter⟩ := slab_linked caches slabs more layout wider idx known slab here m free freeIn inv
    (((m.store (cacheOf slab) (cacheAt caches idx)).store (slabSizeOf slab) pageSize).load (objsPerSlabOf (cacheAt caches idx)))
  have allIn : ∀ n ∈ objects idx slab ++ free, n ∈ allObjects more idx := by
    intro n member
    rw [parts]
    exact (List.mem_append.mp member).elim (List.mem_append_left _) fun old => List.mem_append_right _ (freeIn n old)
  have spaced := free_spaced caches more wider idx known _ allIn
  have fresh : (freeObjList (cacheAt caches idx) :: (objects idx slab ++ free)).Nodup := by
    have whole := all_objects_nodup caches more wider idx known
    rw [parts] at whole
    refine List.nodup_cons.mpr ⟨fun member => ?_, (objects_nodup idx slab known).append (List.nodup_cons.mp inv.freeRing.2).2 fun n new old =>
      List.disjoint_of_nodup_append whole new (freeIn n old)⟩
    have word := object_word caches more wider idx known _ allIn _ ⟨_, member, .inl rfl⟩
    exact own_word caches idx known 24 (by decide) word.1
  have outside : ∀ a, NodeWord (freeObjList (cacheAt caches idx) :: (objects idx slab ++ free)) a →
      a ≠ objSizeOf (cacheAt caches idx) ∧ a ≠ objsPerSlabOf (cacheAt caches idx) := by
    intro a word
    have own := own_word caches idx known 0 (by decide)
    have second := own_word caches idx known 16 (by decide)
    simp only [objSizeOf, objsPerSlabOf]
    rcases free_word caches more wider idx known _ allIn a word with same | same | ⟨away, _⟩
    · omega
    · omega
    · omega
  obtain ⟨ring, threadOnly⟩ := add_all_spec _ _ (objects idx slab) free linked.freeRing spaced fresh
  have few : objsPerSlab idx < pageSize := by
    have all : ∀ i < objCnt, objsPerSlab i < pageSize := by decide
    exact all idx known
  have threaded := thread_spec idx (cacheAt caches idx) slab _ 0 (objsPerSlab idx) pageSize free (Nat.zero_add _) few linked.sized linked.counted
    linked.freeRing (by simpa [objects, List.range_eq_range'] using spaced) (by simpa [objects, List.range_eq_range'] using fresh)
    (by simpa [objects, List.range_eq_range'] using outside)
  have start : objectAt idx slab 0 = slab + slabHeaderSize := by simp [objectAt]
  rw [start, ← List.range_eq_range'] at threaded
  have step := free_list_step caches more wider idx known _ _ free (objects idx slab ++ free) allIn linked threadOnly ((objects idx slab).reverse ++ free) ring
  have reversed : ∀ n ∈ (objects idx slab).reverse ++ free, n ∈ objects idx slab ++ free := by simp
  have final := state_keep caches more wider idx known _ _ (fun n member => allIn n (reversed n member)) cacheAvailable step
  refine ⟨mid, _, ?_, final, first, ?_, threadOnly⟩
  · simp only [slabAlloc, if_neg (Nat.not_le.mpr valid), ← same]
    rw [does, threaded]
    rfl
  · rw [counter]
    have header := fun offset inside => header_word caches more wider idx known slab (slab + offset) newSlab inside
    have own := own_word caches idx known 16 (by decide)
    have notCache : objsPerSlabOf (cacheAt caches idx) ≠ cacheOf slab := by
      have first := (header 0 ⟨by omega, by omega⟩).1
      simp only [objsPerSlabOf, cacheOf]
      omega
    have notSize : objsPerSlabOf (cacheAt caches idx) ≠ slabSizeOf slab := by
      have second := (header 8 ⟨by omega, by omega⟩).1
      simp only [objsPerSlabOf, slabSizeOf]
      omega
    simp only [load, store, Function.update_of_ne notCache, Function.update_of_ne notSize]

theorem slab_alloc_spec (npage page : Nat) (m : Memory) (free : List Nat) (valid : page < npage) (same : slab = page2va page)
    (freeIn : ∀ n ∈ free, n ∈ allObjects slabs idx) (inv : CacheInv caches idx m (slabs idx) free) :
    ∃ after, slabAlloc npage m (cacheAt caches idx) (some page) = some (true, after) ∧
      CacheInv caches idx after (more idx) ((objects idx slab).reverse ++ free) ∧
      Only (Touch caches idx (more idx) ((objects idx slab).reverse ++ free)) m after := by
  have newSlab : slab ∈ more idx := by simp [here]
  obtain ⟨linked, threaded, allocs, final, first, _, threadOnly⟩ :=
    slab_alloc_result caches slabs more layout wider idx known slab here npage page m free valid same freeIn inv
  refine ⟨_, allocs, final, ?_⟩
  refine only_store _ m _ _ _ (only_trans _ _ _ _ (only_mono _ _ _ _ (fun a touched => ?_) first) (only_mono _ _ _ _ (fun a word => ?_) threadOnly)) ?_
  · cases touched with
    | inl header => exact .inr (.inl ⟨slab, newSlab, header⟩)
    | inr word => exact structural_touch caches idx (more idx) _ a (.inr (.inr (.inl word)))
  · refine touch_mono caches idx _ _ _ _ (fun _ member => member) (fun n member => ?_) a (structural_touch caches idx (more idx) _ a (.inr (.inl word)))
    simpa using member
  · exact touch_own caches idx _ _ 56 (by decide)

end Grow

end Ucore.Slub
