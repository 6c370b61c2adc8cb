import Ucore.Slub.SlubLayout

set_option autoImplicit false

namespace Ucore.Slub

open Ucore.Lib

open Ucore.Lib.Memory

-- One cache in memory, with its slabs and its free objects in the order of their lists.
structure CacheInv (caches idx : Nat) (m : Memory) (slabs free : List Nat) : Prop where
  sized : m.word (objSizeOf (cacheAt caches idx)) = objSize idx
  counted : m.word (objsPerSlabOf (cacheAt caches idx)) = objsPerSlab idx
  freeRing : Links.Ring m.links (freeObjList (cacheAt caches idx)) free
  slabRing : Links.Ring m.links (slabList (cacheAt caches idx)) (slabs.map slabLink)
  owned : ∀ slab ∈ slabs, m.word (cacheOf slab) = cacheAt caches idx

theorem node_word_cons (head a : Nat) (nodes : List Nat) : NodeWord (head :: nodes) a ↔ (a = head ∨ a = head + 8) ∨ NodeWord nodes a := by
  simp [NodeWord]

theorem link_word (slabs : List Nat) (a : Nat) (word : NodeWord (slabs.map slabLink) a) : ∃ slab ∈ slabs, a = slab + 24 ∨ a = slab + 32 := by
  obtain ⟨node, member, part⟩ := word
  obtain ⟨slab, inside, rfl⟩ := List.mem_map.mp member
  exact ⟨slab, inside, part⟩

-- The words that the list structure of a cache is in.
def Structural (caches idx : Nat) (slabs free : List Nat) (a : Nat) : Prop :=
  (a = cacheAt caches idx ∨ a = cacheAt caches idx + 16) ∨ NodeWord (freeObjList (cacheAt caches idx) :: free) a ∨
    NodeWord (slabList (cacheAt caches idx) :: slabs.map slabLink) a ∨ a ∈ slabs

-- What is not of the structure leaves it as it is.
theorem cache_keep (caches idx : Nat) (m after : Memory) (slabs free : List Nat) (allowed : Nat → Prop) (inv : CacheInv caches idx m slabs free)
    (only : Only allowed m after) (outside : ∀ a, Structural caches idx slabs free a → ¬ allowed a) : CacheInv caches idx after slabs free where
  sized := (only.kept _ (outside _ (.inl (.inl rfl)))).trans inv.sized
  counted := (only.kept _ (outside _ (.inl (.inr rfl)))).trans inv.counted
  freeRing := ring_frame m after allowed _ free only (fun a word => outside a (.inr (.inl word))) inv.freeRing
  slabRing := ring_frame m after allowed _ _ only (fun a word => outside a (.inr (.inr (.inl word)))) inv.slabRing
  owned := fun slab member => (only.kept _ (outside _ (.inr (.inr (.inr member))))).trans (inv.owned slab member)

theorem structural_touch (caches idx : Nat) (slabs free : List Nat) (a : Nat) (structural : Structural caches idx slabs free a) :
    Touch caches idx slabs free a := by
  rcases structural with (rfl | rfl) | inFree | inSlabs | member
  · exact touch_own caches idx slabs free 0 (by decide)
  · exact touch_own caches idx slabs free 16 (by decide)
  · rcases (node_word_cons _ a free).mp inFree with (rfl | rfl) | node
    · exact touch_own caches idx slabs free 24 (by decide)
    · exact touch_own caches idx slabs free 32 (by decide)
    · exact .inr (.inr node)
  · rcases (node_word_cons _ a _).mp inSlabs with (rfl | rfl) | node
    · exact touch_own caches idx slabs free 40 (by decide)
    · exact touch_own caches idx slabs free 48 (by decide)
    · obtain ⟨slab, member, rfl | rfl⟩ := link_word slabs a node
      · exact touch_header caches idx slabs free slab 24 member (by decide)
      · exact touch_header caches idx slabs free slab 32 member (by decide)
  · exact touch_header caches idx slabs free a 0 member (by decide)

section Words

variable (caches : Nat) (slabs : Nat → List Nat) (layout : Layout caches slabs) (idx : Nat) (known : idx < objCnt)

include layout known

-- The words of the objects are beyond the headers of the pages, and those of the
-- headers before; both are away from the caches.
theorem object_word (free : List Nat) (freeIn : ∀ n ∈ free, n ∈ allObjects slabs idx) (a : Nat) (word : NodeWord free a) :
    (a + 8 ≤ caches ∨ cacheAt caches objCnt ≤ a) ∧ 40 ≤ a % 4096 := by
  obtain ⟨n, member, part⟩ := word
  obtain ⟨slab, _, _, aligned, away, lower, upper, _, room⟩ := object_place caches slabs layout idx n known (freeIn n member)
  omega

theorem header_word (slab a : Nat) (member : slab ∈ slabs idx) (inside : slab ≤ a ∧ a + 8 ≤ slab + 40) :
    (a + 8 ≤ caches ∨ cacheAt caches objCnt ≤ a) ∧ a % 4096 < 40 := by
  have aligned := layout.aligned idx known slab member
  have away := layout.away idx known slab member
  simp only [pageSize] at aligned away
  omega

omit layout in
theorem own_word (offset : Nat) (inside : offset + 8 ≤ cacheBytes) :
    ¬ (cacheAt caches idx + offset + 8 ≤ caches ∨ cacheAt caches objCnt ≤ cacheAt caches idx + offset) := by
  have top := cache_below caches idx objCnt known
  have low : caches ≤ cacheAt caches idx := Nat.le_add_right _ _
  omega

theorem free_spaced (free : List Nat) (freeIn : ∀ n ∈ free, n ∈ allObjects slabs idx) : Spaced (freeObjList (cacheAt caches idx) :: free) := by
  have head := own_word caches idx known 24 (by decide)
  have second := own_word caches idx known 32 (by decide)
  intro a left b right
  rcases List.mem_cons.mp left with rfl | inLeft
  · rcases List.mem_cons.mp right with rfl | inRight
    · omega
    · have other := object_word caches slabs layout idx known free freeIn (b + 8) ⟨b, inRight, .inr rfl⟩
      intro same
      replace same : cacheAt caches idx + 24 = b + 8 := same
      omega
  · have word := object_word caches slabs layout idx known free freeIn a ⟨a, inLeft, .inl rfl⟩
    rcases List.mem_cons.mp right with rfl | inRight
    · intro same
      exact second (same ▸ word.1)
    · obtain ⟨_, _, _, _, _, _, _, evenA, _⟩ := object_place caches slabs layout idx a known (freeIn a inLeft)
      obtain ⟨_, _, _, _, _, _, _, evenB, _⟩ := object_place caches slabs layout idx b known (freeIn b inRight)
      omega

theorem slab_spaced : Spaced (slabList (cacheAt caches idx) :: (slabs idx).map slabLink) := by
  have head := own_word caches idx known 40 (by decide)
  have second := own_word caches idx known 48 (by decide)
  intro a left b right
  rcases List.mem_cons.mp left with rfl | inLeft
  · rcases List.mem_cons.mp right with rfl | inRight
    · omega
    · obtain ⟨Q, inQ, rfl⟩ := List.mem_map.mp inRight
      have other := header_word caches slabs layout idx known Q (Q + 32) inQ (by omega)
      intro same
      replace same : cacheAt caches idx + 40 = Q + 24 + 8 := same
      omega
  · obtain ⟨P, inP, rfl⟩ := List.mem_map.mp inLeft
    have word := header_word caches slabs layout idx known P (P + 24) inP (by omega)
    rcases List.mem_cons.mp right with rfl | inRight
    · intro same
      exact second (same ▸ word.1)
    · obtain ⟨Q, inQ, rfl⟩ := List.mem_map.mp inRight
      have alignedP := layout.aligned idx known P inP
      have alignedQ := layout.aligned idx known Q inQ
      simp only [pageSize] at alignedP alignedQ
      simp only [slabLink]
      omega

-- The words of the list of free objects are not those of the list of slabs.
theorem free_word (free : List Nat) (freeIn : ∀ n ∈ free, n ∈ allObjects slabs idx) (a : Nat) (word : NodeWord (freeObjList (cacheAt caches idx) :: free) a) :
    a = cacheAt caches idx + 24 ∨ a = cacheAt caches idx + 32 ∨ ((a + 8 ≤ caches ∨ cacheAt caches objCnt ≤ a) ∧ 40 ≤ a % 4096) := by
  rcases (node_word_cons _ a free).mp word with (rfl | rfl) | node
  · exact .inl rfl
  · exact .inr (.inl rfl)
  · exact .inr (.inr (object_word caches slabs layout idx known free freeIn a node))

theorem slab_word (a : Nat) (word : NodeWord (slabList (cacheAt caches idx) :: (slabs idx).map slabLink) a) :
    a = cacheAt caches idx + 40 ∨ a = cacheAt caches idx + 48 ∨
      ((a + 8 ≤ caches ∨ cacheAt caches objCnt ≤ a) ∧ a % 4096 < 40 ∧ ∃ slab ∈ slabs idx, a = slab + 24 ∨ a = slab + 32) := by
  rcases (node_word_cons _ a _).mp word with (rfl | rfl) | node
  · exact .inl rfl
  · exact .inr (.inl rfl)
  · obtain ⟨slab, member, part⟩ := link_word _ a node
    have header := header_word caches slabs layout idx known slab a member (by omega)
    exact .inr (.inr ⟨header.1, header.2, slab, member, part⟩)

theorem lists_apart (free : List Nat) (freeIn : ∀ n ∈ free, n ∈ allObjects slabs idx) (a : Nat)
    (inFree : NodeWord (freeObjList (cacheAt caches idx) :: free) a) : ¬ NodeWord (slabList (cacheAt caches idx) :: (slabs idx).map slabLink) a := by
  intro inSlabs
  have own := own_word caches idx known 24 (by decide)
  have second := own_word caches idx known 32 (by decide)
  have third := own_word caches idx known 40 (by decide)
  have fourth := own_word caches idx known 48 (by decide)
  rcases slab_word caches slabs layout idx known a inSlabs with rfl | rfl | ⟨away, low, _⟩
  · rcases free_word caches slabs layout idx known free freeIn _ inFree with same | same | ⟨away, _⟩
    · omega
    · omega
    · exact third away
  · rcases free_word caches slabs layout idx known free freeIn _ inFree with same | same | ⟨away, _⟩
    · omega
    · omega
    · exact fourth away
  · rcases free_word caches slabs layout idx known free freeIn _ inFree with rfl | rfl | ⟨_, beyond⟩
    · exact own away
    · exact second away
    · omega

theorem structural_word (free : List Nat) (freeIn : ∀ n ∈ free, n ∈ allObjects slabs idx) (a : Nat) (structural : Structural caches idx (slabs idx) free a) :
    (∃ offset, offset + 8 ≤ cacheBytes ∧ offset ≠ 56 ∧ a = cacheAt caches idx + offset) ∨
      ((a + 8 ≤ caches ∨ cacheAt caches objCnt ≤ a) ∧ (40 ≤ a % 4096 ∨ ∃ slab ∈ slabs idx, a = slab ∨ a = slab + 24 ∨ a = slab + 32)) := by
  rcases structural with (rfl | rfl) | inFree | inSlabs | member
  · exact .inl ⟨0, by decide, by decide, rfl⟩
  · exact .inl ⟨16, by decide, by decide, rfl⟩
  · rcases free_word caches slabs layout idx known free freeIn a inFree with rfl | rfl | ⟨away, beyond⟩
    · exact .inl ⟨24, by decide, by decide, rfl⟩
    · exact .inl ⟨32, by decide, by decide, rfl⟩
    · exact .inr ⟨away, .inl beyond⟩
  · rcases slab_word caches slabs layout idx known a inSlabs with rfl | rfl | ⟨away, _, slab, member, part⟩
    · exact .inl ⟨40, by decide, by decide, rfl⟩
    · exact .inl ⟨48, by decide, by decide, rfl⟩
    · exact .inr ⟨away, .inr ⟨slab, member, .inr part⟩⟩
  · have header := header_word caches slabs layout idx known a a member (by omega)
    exact .inr ⟨header.1, .inr ⟨a, member, .inl rfl⟩⟩

-- The count of a slab and the state of the cache are not of the structure.
theorem count_keep (m : Memory) (free : List Nat) (freeIn : ∀ n ∈ free, n ∈ allObjects slabs idx) (slab value : Nat) (member : slab ∈ slabs idx)
    (inv : CacheInv caches idx m (slabs idx) free) : CacheInv caches idx (m.store (freeObjCnt slab) value) (slabs idx) free := by
  refine cache_keep caches idx m _ (slabs idx) free (fun a => a = slab + 16) inv (only_store _ m m _ value (only_refl _ m) rfl) fun a structural same => ?_
  have header := header_word caches slabs layout idx known slab a member (by omega)
  rcases structural_word caches slabs layout idx known free freeIn a structural with ⟨offset, inside, _, rfl⟩ | ⟨_, beyond | ⟨other, inOther, part⟩⟩
  · exact own_word caches idx known offset inside header.1
  · omega
  · have alignedP := layout.aligned idx known slab member
    have alignedQ := layout.aligned idx known other inOther
    simp only [pageSize] at alignedP alignedQ
    omega

theorem state_keep (m : Memory) (free : List Nat) (freeIn : ∀ n ∈ free, n ∈ allObjects slabs idx) (value : Nat)
    (inv : CacheInv caches idx m (slabs idx) free) : CacheInv caches idx (m.store (stateOf (cacheAt caches idx)) value) (slabs idx) free := by
  refine cache_keep caches idx m _ (slabs idx) free (fun a => a = cacheAt caches idx + 56) inv (only_store _ m m _ value (only_refl _ m) rfl) fun a structural same => ?_
  rcases structural_word caches slabs layout idx known free freeIn a structural with ⟨offset, _, other, rfl⟩ | ⟨away, _⟩
  · omega
  · exact own_word caches idx known 56 (by decide) (same ▸ away)

-- Work on the list of free objects alone.
theorem free_list_step (m after : Memory) (free others : List Nat) (othersIn : ∀ n ∈ others, n ∈ allObjects slabs idx) (inv : CacheInv caches idx m (slabs idx) free)
    (only : Only (NodeWord (freeObjList (cacheAt caches idx) :: others)) m after) (final : List Nat)
    (ring : Links.Ring after.links (freeObjList (cacheAt caches idx)) final) : CacheInv caches idx after (slabs idx) final where
  sized := by
    refine (only.kept _ fun word => ?_).trans inv.sized
    have own := own_word caches idx known 0 (by decide)
    rcases free_word caches slabs layout idx known others othersIn _ word with same | same | ⟨away, _⟩
    · simp only [objSizeOf] at same
      omega
    · simp only [objSizeOf] at same
      omega
    · exact own away
  counted := by
    refine (only.kept _ fun word => ?_).trans inv.counted
    have own := own_word caches idx known 16 (by decide)
    rcases free_word caches slabs layout idx known others othersIn _ word with same | same | ⟨away, _⟩
    · simp only [objsPerSlabOf] at same
      omega
    · simp only [objsPerSlabOf] at same
      omega
    · exact own away
  freeRing := ring
  slabRing := by
    refine ring_frame m after _ _ _ only (fun a inSlabs inFree => ?_) inv.slabRing
    exact lists_apart caches slabs layout idx known others othersIn a inFree inSlabs
  owned := fun slab member => by
    refine (only.kept _ fun word => ?_).trans (inv.owned slab member)
    have header := header_word caches slabs layout idx known slab slab member (by omega)
    rcases free_word caches slabs layout idx known others othersIn _ word with same | same | ⟨_, beyond⟩
    · exact own_word caches idx known 24 (by decide) (same ▸ header.1)
    · exact own_word caches idx known 32 (by decide) (same ▸ header.1)
    · simp only [cacheOf] at beyond
      omega

end Words

end Ucore.Slub
