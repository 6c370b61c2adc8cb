import Ucore.Slub.SlubRuns

set_option autoImplicit false

namespace Ucore.Slub

open Ucore.Lib

open Ucore.Lib.Memory

-- The pointers that kfree refuses: null, those whose page does not begin with a
-- pointer into slub_caches, and those into the first bytes of their page.
def Rejects (caches : Nat) (m : Memory) (p : Nat) : Prop :=
  p = 0 ∨ m.load (cacheOf (p - p % pageSize)) < caches ∨ cacheAt caches objCnt ≤ m.load (cacheOf (p - p % pageSize)) ∨ p % pageSize < slabHeaderSize

instance (caches : Nat) (m : Memory) (p : Nat) : Decidable (Rejects caches m p) :=
  inferInstanceAs (Decidable (p = 0 ∨ m.load (cacheOf (p - p % pageSize)) < caches ∨ cacheAt caches objCnt ≤ m.load (cacheOf (p - p % pageSize)) ∨
    p % pageSize < slabHeaderSize))

def Live (s : System) (p : Nat) : Prop := ∃ o ∈ s.live, o.addr = p

instance (s : System) (p : Nat) : Decidable (Live s p) := inferInstanceAs (Decidable (∃ o ∈ s.live, o.addr = p))

-- kfree gives the object to its cache: it becomes the first of the free ones, and
-- nothing else of the lists, of the slabs and of what is in use changes.
def Returned (caches npage : Nat) (s : System) (p : Nat) : Prop :=
  ∃ o slabs free next, o ∈ s.live ∧ o.addr = p ∧ s.step caches npage (.kfree p) = some next ∧ next.memory = kfree caches ⟨s.memory.word, []⟩ p ∧
    next.live = s.live.eraseP (fun other => other.addr = p) ∧ SlubInvariant caches s slabs free ∧
    SlubInvariant caches next slabs (Function.update free o.idx (p :: free o.idx)) ∧ Intact caches npage s (.kfree p)

theorem kfree_refused (caches : Nat) (m : Memory) (p : Nat) (refuses : Rejects caches m p) : kfree caches m p = m := by
  rw [kfree]
  by_cases null : p = 0
  · rw [if_pos null]
  · rw [if_neg null]
    by_cases foreign : m.load (cacheOf (p - p % pageSize)) < caches ∨ cacheAt caches objCnt ≤ m.load (cacheOf (p - p % pageSize))
    · exact if_pos foreign
    · have low : p % pageSize < slabHeaderSize := by
        rcases refuses with zero | below | above | low
        · exact absurd zero null
        · exact absurd (.inl below) foreign
        · exact absurd (.inr above) foreign
        · exact low
      have outside : p < p - p % pageSize + slabHeaderSize ∨ p - p % pageSize + pageSize ≤ p := by omega
      simp only [if_neg foreign, if_pos outside]

theorem kfree_accepted (caches : Nat) (m : Memory) (p : Nat) (accepts : ¬ Rejects caches m p) :
    kfree caches m p = (m.listAdd (freeObjList (m.load (cacheOf (p - p % pageSize)))) p).store (freeObjCnt (p - p % pageSize))
      (((m.listAdd (freeObjList (m.load (cacheOf (p - p % pageSize)))) p).load (freeObjCnt (p - p % pageSize)) + 1) % 2 ^ 64) := by
  obtain ⟨null, accepts⟩ := not_or.mp accepts
  obtain ⟨below, accepts⟩ := not_or.mp accepts
  obtain ⟨above, low⟩ := not_or.mp accepts
  have foreign : ¬ (m.load (cacheOf (p - p % pageSize)) < caches ∨ cacheAt caches objCnt ≤ m.load (cacheOf (p - p % pageSize))) :=
    not_or.mpr ⟨below, above⟩
  have inside : ¬ (p < p - p % pageSize + slabHeaderSize ∨ p - p % pageSize + pageSize ≤ p) := by
    simp only [pageSize, slabHeaderSize] at low ⊢
    omega
  simp only [kfree, if_neg null, if_neg foreign, if_neg inside]

-- kfree stores nothing at all just if it refuses the pointer.
theorem kfree_same_iff (caches : Nat) (m : Memory) (p : Nat) : kfree caches m p = m ↔ Rejects caches m p := by
  constructor
  · intro same
    by_contra accepts
    rw [kfree_accepted caches m p accepts] at same
    have longer := congrArg (fun after => after.written.length) same
    simp only [store, listAdd, insertBetween, List.length_cons] at longer
    omega
  · exact kfree_refused caches m p

-- The page of a pointer lies apart from the array of the caches; a header that points
-- between two of them makes kfree reach a little beyond the last one.
def PageApart (caches p : Nat) : Prop := p - p % pageSize + pageSize ≤ caches ∨ cacheAt caches (objCnt + 1) ≤ p - p % pageSize

-- An accepted pointer becomes the first of a free list, or it is already and is counted.
theorem accepted_writes (caches : Nat) (m : Memory) (p : Nat) (apart : PageApart caches p) (accepts : ¬ Rejects caches m p) :
    (kfree caches m p).word ≠ m.word := by
  simp only [Rejects, not_or, not_lt, not_le] at accepts
  obtain ⟨_, above, below, low⟩ := accepts
  have shape := kfree_accepted caches m p (by
    simp only [Rejects, not_or, not_lt, not_le]
    omega)
  generalize cache : m.load (cacheOf (p - p % pageSize)) = owner at shape above below
  have place : freeObjCnt (p - p % pageSize) ≠ p ∧ freeObjCnt (p - p % pageSize) ≠ p + 8 ∧
      freeObjCnt (p - p % pageSize) ≠ freeObjList owner + 8 ∧ freeObjList owner + 8 ≠ p ∧ freeObjList owner + 8 ≠ p + 8 := by
    simp only [PageApart, cacheAt, cacheBytes, objCnt, freeObjCnt, freeObjList, slabHeaderSize, pageSize] at apart below low ⊢
    omega
  obtain ⟨notNode, notNext, notHead, headNode, headNext⟩ := place
  intro same
  by_cases first : m.load (freeObjList owner + 8) = p
  · have kept : (m.listAdd (freeObjList owner) p).word (freeObjCnt (p - p % pageSize)) = m.word (freeObjCnt (p - p % pageSize)) := by
      rw [listAdd, first]
      simp only [insertBetween, store, Function.update_of_ne notNode, Function.update_of_ne notNext, Function.update_of_ne notHead]
    have now := congrFun same (freeObjCnt (p - p % pageSize))
    rw [shape, store_same, load, kept] at now
    omega
  · have now := congrFun same (freeObjList owner + 8)
    rw [shape, store_other _ _ _ _ notHead.symm, listAdd, insertBetween, store_other _ _ _ _ headNode, store_other _ _ _ _ headNext, store_same] at now
    exact first now.symm

theorem kfree_word_iff (caches : Nat) (m : Memory) (p : Nat) (apart : PageApart caches p) :
    (kfree caches m p).word = m.word ↔ Rejects caches m p := by
  constructor
  · intro same
    by_contra accepts
    exact accepted_writes caches m p apart accepts same
  · intro refuses
    rw [kfree_refused caches m p refuses]

-- One cache is as it should be: its lists are rings of its free objects and of its
-- slabs, and the objects of the slabs are those and the ones in use.
structure CacheIntact (caches idx : Nat) (s : System) (slabs : Nat → List Nat) (free : List Nat) : Prop where
  layout : Layout caches slabs
  lists : CacheInv caches idx s.memory (slabs idx) free
  exact : (free ++ liveOf s idx).Perm (allObjects slabs idx)

-- kfree gives the object to its cache, which stays as it should be, and no word of
-- anything else changes.
def ReturnedIn (caches npage : Nat) (s : System) (o : Object) (slabs : Nat → List Nat) (free : List Nat) : Prop :=
  ∃ next, s.step caches npage (.kfree o.addr) = some next ∧ next.memory = kfree caches ⟨s.memory.word, []⟩ o.addr ∧
    next.live = s.live.eraseP (fun other => other.addr = o.addr) ∧ CacheIntact caches o.idx next slabs (o.addr :: free) ∧
    ∀ a, ¬ Touch caches o.idx (slabs o.idx) (o.addr :: free) a → next.memory.word a = s.memory.word a

theorem idx_known (o : Object) : o.idx < objCnt := by
  rw [Object.idx]
  cases found : requestIdx o.size with
  | none => decide
  | some idx => exact (request_idx_spec o.size idx found).1

theorem intact_returned (caches npage : Nat) (s : System) (o : Object) (slabs : Nat → List Nat) (free : List Nat)
    (held : s.live.find? (fun other => other.addr = o.addr) = some o) (intact : CacheIntact caches o.idx s slabs free) :
    ReturnedIn caches npage s o slabs free := by
  have known := idx_known o
  have member := List.mem_of_find?_eq_some held
  have inLive : o.addr ∈ liveOf s o.idx := List.mem_map_of_mem (List.mem_filter.mpr ⟨member, by simp⟩)
  have nodup := intact.exact.nodup_iff.mpr (all_objects_nodup caches slabs intact.layout o.idx known)
  have notFree : o.addr ∉ free := fun inFree => List.disjoint_of_nodup_append nodup inFree inLive
  obtain ⟨slab, inSlabs, part⟩ := List.mem_flatMap.mp (intact.exact.mem_iff.mp (List.mem_append_right _ inLive))
  have freeIn : ∀ n ∈ free, n ∈ allObjects slabs o.idx := fun n within => intact.exact.mem_iff.mp (List.mem_append_left _ within)
  obtain ⟨kept, only⟩ := kfree_spec caches slabs intact.layout o.idx known ⟨s.memory.word, []⟩ slab o.addr free inSlabs part notFree freeIn
    (cache_log caches o.idx s.memory _ _ [] intact.lists)
  have any : (s.live.any fun other => other.addr = o.addr) = true := List.any_eq_true.mpr ⟨o, member, by simp⟩
  obtain ⟨_, first, last, split, earlier⟩ := List.find?_eq_some_iff_append.mp held
  have erased : s.live.eraseP (fun other => other.addr = o.addr) = first ++ last := by
    rw [split, List.eraseP_append_right _ fun other inFirst => by simpa using earlier other inFirst, List.eraseP_cons_of_pos (by simp)]
  refine ⟨⟨kfree caches ⟨s.memory.word, []⟩ o.addr, s.live.eraseP fun other => other.addr = o.addr, s.pages⟩, ?_, rfl, rfl,
    ⟨intact.layout, kept, ?_⟩, fun a outside => only.kept a outside⟩
  · simp only [System.step]
    exact if_pos any
  · have moved := live_of_split s s.memory o first last s.pages o.idx split
    rw [if_pos rfl] at moved
    rw [erased]
    exact (List.perm_middle.symm.trans (moved.symm.append_left free)).trans intact.exact

section States

variable (caches npage : Nat) (s : System) (slabs free : Nat → List Nat) (inv : Inv caches s slabs free)

include inv

theorem live_returned (p : Nat) (live : Live s p) : Returned caches npage s p := by
  obtain ⟨found, inLive, here⟩ := live
  have any : (s.live.any fun o => o.addr = p) = true := List.any_eq_true.mpr ⟨found, inLive, decide_eq_true here⟩
  have stepped : s.step caches npage (.kfree p) =
      some ⟨kfree caches ⟨s.memory.word, []⟩ p, s.live.eraseP fun other => other.addr = p, s.pages⟩ := by
    simp only [System.step]
    exact if_pos any
  obtain ⟨o, _, member, same, _, _, _, _, memory, kept, _⟩ := kfree_cases caches npage s slabs free inv p _ stepped
  exact ⟨o, slabs, free, _, member, same, stepped, memory, rfl, slub_invariant_of caches s slabs free inv, slub_invariant_of caches _ _ _ kept,
    intact_of caches npage s slabs free inv (.kfree p) trivial trivial⟩

-- A pointer into a slab that is accepted is counted in the header of the slab.
theorem accepted_counts (p idx slab : Nat) (known : idx < objCnt) (member : slab ∈ slabs idx) (page : p - p % pageSize = slab)
    (accepts : ¬ Rejects caches s.memory p) : (kfree caches s.memory p).word (freeObjCnt slab) ≠ s.memory.word (freeObjCnt slab) := by
  have owner : s.memory.load (cacheOf slab) = cacheAt caches idx := (inv.kept idx known).owned slab member
  have low : ¬ p % pageSize < slabHeaderSize := fun low => accepts (.inr (.inr (.inr low)))
  have header := header_word caches slabs inv.layout idx known slab (slab + 16) member (by omega)
  have aligned := inv.layout.aligned idx known slab member
  obtain ⟨next, gap, nextIn⟩ := front_gap (freeObjList (cacheAt caches idx)) (free idx)
  have onward : s.memory.load (freeObjList (cacheAt caches idx) + 8) = next :=
    (Links.ring_gap s.memory.links _ [] (free idx) _ next gap (inv.kept idx known).freeRing).1
  have freeIn : ∀ n ∈ free idx, n ∈ allObjects slabs idx := fun n inside => free_in caches s slabs free inv idx n known inside
  have head := own_word caches idx known 24 (by decide)
  have second := own_word caches idx known 32 (by decide)
  have notNext : freeObjCnt slab ≠ next := by
    intro same
    rcases free_word caches slabs inv.layout idx known (free idx) freeIn next ⟨next, nextIn, .inl rfl⟩ with here | here | ⟨_, beyond⟩
    · exact head (here ▸ same ▸ header.1)
    · exact second (here ▸ same ▸ header.1)
    · simp only [freeObjCnt] at same
      omega
  have notHead : freeObjCnt slab ≠ freeObjList (cacheAt caches idx) + 8 := by
    have away := header.1
    simp only [freeObjCnt, freeObjList]
    omega
  have notNode : freeObjCnt slab ≠ p + 8 ∧ freeObjCnt slab ≠ p := by
    simp only [freeObjCnt, pageSize, slabHeaderSize] at low page aligned ⊢
    omega
  have kept : (s.memory.listAdd (freeObjList (cacheAt caches idx)) p).word (freeObjCnt slab) = s.memory.word (freeObjCnt slab) := by
    rw [listAdd, onward]
    simp only [insertBetween, store, Function.update_of_ne notNode.2, Function.update_of_ne notNode.1, Function.update_of_ne notHead,
      Function.update_of_ne notNext]
  rw [kfree_accepted caches s.memory p accepts, page, owner]
  intro same
  have now := (Function.update_self (freeObjCnt slab) _ _).symm.trans same
  rw [load, kept] at now
  omega

end States

-- For a pointer that is not the start of an object in use kfree stores nothing, and off
-- the pages of slub_caches changes no word, just if it refuses it, and an accepted one
-- into a slab changes the header; objects in use of a cache that is as it should be are
-- given to it, which without a page for requests of 1 to 8 bytes are all objects in use.
theorem kfree_exact (caches npage : Nat) (word : Nat → Nat) (calls : List Call) (s : System) (p : Nat)
    (given : Throughout (System.step caches npage) (Given caches) (System.boot caches word) calls)
    (ran : run (System.step caches npage) (System.boot caches word) calls = some s) :
    (¬ Live s p → (kfree caches s.memory p = s.memory ↔ Rejects caches s.memory p) ∧
        (PageApart caches p → ((kfree caches s.memory p).word = s.memory.word ↔ Rejects caches s.memory p))) ∧
      (∀ o slabs free, s.live.find? (fun other => other.addr = o.addr) = some o → CacheIntact caches o.idx s slabs free →
        ReturnedIn caches npage s o slabs free) ∧
      ((∀ call ∈ calls, Roomy call) → (Live s p → Returned caches npage s p) ∧
        ∃ slabs free, SlubInvariant caches s slabs free ∧ (∀ idx < objCnt, CacheIntact caches idx s slabs (free idx)) ∧
          ∀ idx < objCnt, ∀ slab ∈ slabs idx, p - p % pageSize = slab → ¬ Rejects caches s.memory p →
            (kfree caches s.memory p).word (freeObjCnt slab) ≠ s.memory.word (freeObjCnt slab)) := by
  refine ⟨fun _ => ⟨kfree_same_iff caches s.memory p, kfree_word_iff caches s.memory p⟩,
    fun o slabs free held intact => intact_returned caches npage s o slabs free held intact, fun roomy => ?_⟩
  obtain ⟨slabs, free, inv⟩ := reached_inv caches npage word calls s roomy given ran
  exact ⟨live_returned caches npage s slabs free inv p, slabs, free, slub_invariant_of caches s slabs free inv,
    fun idx known => ⟨inv.layout, inv.kept idx known, inv.exact idx known⟩,
    fun idx known slab member page accepts => accepted_counts caches s slabs free inv p idx slab known member page accepts⟩

theorem kfree_exact_mixed : ∃ s, run (System.step someCaches somePages) (System.boot someCaches fun _ => 0) mixedCalls = some s ∧
    Returned someCaches somePages s 0xFFFFFFFFC0301FE8 ∧ (kfree someCaches s.memory 0xFFFFFFFFC0301FF0).word ≠ s.memory.word ∧
    kfree someCaches s.memory 0xFFFFFFFFC0301010 = s.memory := by
  have trace : (run (System.step someCaches somePages) (System.boot someCaches fun _ => 0) mixedCalls).map (fun s =>
      (decide (Live s 0xFFFFFFFFC0301FE8), decide (Live s 0xFFFFFFFFC0301FF0 ∨ Rejects someCaches s.memory 0xFFFFFFFFC0301FF0 ∨
        Live s 0xFFFFFFFFC0301010), decide (Rejects someCaches s.memory 0xFFFFFFFFC0301010))) = some (true, false, true) := by decide +kernel
  have given : Throughout (System.step someCaches somePages) (Given someCaches) (System.boot someCaches fun _ => 0) mixedCalls := by decide +kernel
  have roomy : ∀ call ∈ mixedCalls, Roomy call := by simp [mixedCalls, Roomy]
  have apart : PageApart someCaches 0xFFFFFFFFC0301FF0 := .inr (by decide)
  obtain ⟨s, ran, facts⟩ := Option.map_eq_some_iff.mp trace
  simp only [Prod.mk.injEq, decide_eq_false_iff_not, decide_eq_true_eq, not_or] at facts
  obtain ⟨live, dead, refused⟩ := facts
  have exact' := kfree_exact someCaches somePages (fun _ => 0) mixedCalls s
  exact ⟨s, ran, ((exact' _ given ran).2.2 roomy).1 live, fun same => dead.2.1 ((((exact' _ given ran).1 dead.1).2 apart).mp same),
    ((exact' _ given ran).1 dead.2.2).1.mpr refused⟩

def freedTwice : List Call := [.kmalloc 20 (some 0x300), .kfree 0xFFFFFFFFC0300FC8]

-- An object that is free already goes on the list a second time, and a pointer into
-- the middle of it too.
theorem freed_twice_accepted : ∃ s, run (System.step someCaches somePages) (System.boot someCaches fun _ => 0) freedTwice = some s ∧
    (¬ Live s 0xFFFFFFFFC0300FC8 ∧ (kfree someCaches s.memory 0xFFFFFFFFC0300FC8).word ≠ s.memory.word) ∧
    ¬ Live s 0xFFFFFFFFC0300FCC ∧ (kfree someCaches s.memory 0xFFFFFFFFC0300FCC).word ≠ s.memory.word := by
  have trace : (run (System.step someCaches somePages) (System.boot someCaches fun _ => 0) freedTwice).map (fun s =>
      (decide (Live s 0xFFFFFFFFC0300FC8 ∨ Live s 0xFFFFFFFFC0300FCC), decide (Rejects someCaches s.memory 0xFFFFFFFFC0300FC8 ∨
        Rejects someCaches s.memory 0xFFFFFFFFC0300FCC))) = some (false, false) := by decide +kernel
  obtain ⟨s, ran, facts⟩ := Option.map_eq_some_iff.mp trace
  simp only [Prod.mk.injEq, decide_eq_false_iff_not, not_or] at facts
  obtain ⟨dead, accepted⟩ := facts
  exact ⟨s, ran, ⟨dead.1, accepted_writes _ _ _ (.inr (by decide)) accepted.1⟩, dead.2, accepted_writes _ _ _ (.inr (by decide)) accepted.2⟩

end Ucore.Slub
