import Ucore.Slub.SlubSteps

set_option autoImplicit false

namespace Ucore.Slub

open Ucore.Lib

open Ucore.Lib.Memory

def liveOf (s : System) (idx : Nat) : List Nat := (s.live.filter fun o => o.idx = idx).map Object.addr

structure Inv (caches : Nat) (s : System) (slabs free : Nat → List Nat) : Prop where
  layout : Layout caches slabs
  kept : ∀ idx < objCnt, CacheInv caches idx s.memory (slabs idx) (free idx)
  exact : ∀ idx < objCnt, (free idx ++ liveOf s idx).Perm (allObjects slabs idx)
  requests : ∀ o ∈ s.live, requestIdx o.size = some o.idx
  taken : ∀ idx < objCnt, ∀ slab ∈ slabs idx, ∃ page ∈ s.pages, slab = page2va page

theorem cache_log (caches idx : Nat) (m : Memory) (slabs free log : List Nat) (inv : CacheInv caches idx m slabs free) :
    CacheInv caches idx ⟨m.word, log⟩ slabs free := ⟨inv.sized, inv.counted, inv.freeRing, inv.slabRing, inv.owned⟩

section States

variable (caches : Nat) (s : System) (slabs free : Nat → List Nat) (inv : Inv caches s slabs free)

include inv

theorem free_in (idx n : Nat) (known : idx < objCnt) (member : n ∈ free idx) : n ∈ allObjects slabs idx :=
  (inv.exact idx known).mem_iff.mp (List.mem_append_left _ member)

theorem live_in (o : Object) (member : o ∈ s.live) : o.idx < objCnt ∧ o.addr ∈ allObjects slabs o.idx ∧ o.addr ∉ free o.idx := by
  have known := (request_idx_spec o.size o.idx (inv.requests o member)).1
  have inLive : o.addr ∈ liveOf s o.idx := List.mem_map_of_mem (List.mem_filter.mpr ⟨member, by simp⟩)
  have nodup := (inv.exact o.idx known).nodup_iff.mpr (all_objects_nodup caches slabs inv.layout o.idx known)
  exact ⟨known, (inv.exact o.idx known).mem_iff.mp (List.mem_append_right _ inLive), fun inFree => List.disjoint_of_nodup_append nodup inFree inLive⟩

-- The words that the lists of a cache are in are of no object in use.
theorem structural_free (idx a : Nat) (known : idx < objCnt) (structural : Structural caches idx (slabs idx) (free idx) a) (o : Object) (member : o ∈ s.live) :
    ¬ (o.addr < a + 8 ∧ a < o.addr + objSize o.idx) := by
  obtain ⟨also, inObjects, notFree⟩ := live_in caches s slabs free inv o member
  exact touch_object caches slabs inv.layout idx o.idx (free idx) o.addr a known also (fun n inFree => free_in caches s slabs free inv idx n known inFree)
    inObjects (fun same => same ▸ notFree) (structural_touch caches idx (slabs idx) (free idx) a structural)

theorem use_inv (npage obj index value : Nat) (next : System) (stepped : s.step caches npage (.use obj index value) = some next) :
    Inv caches next slabs free := by
  simp only [System.step] at stepped
  split at stepped
  · rename_i writable
    obtain ⟨o, member, rfl, fits⟩ := writable
    obtain rfl := Option.some.inj stepped
    obtain ⟨known, _, enough, _⟩ := request_idx_spec o.size o.idx (inv.requests o member)
    have wide := class_word o.idx known
    refine ⟨inv.layout, fun idx inside => ?_, inv.exact, inv.requests, inv.taken⟩
    refine cache_keep caches idx _ _ _ _ (fun a => a = o.addr + 8 * index) (cache_log caches idx s.memory _ _ [] (inv.kept idx inside))
      (only_store _ _ _ _ value (only_refl _ _) rfl) fun a structural same => ?_
    refine structural_free caches s slabs free inv idx a inside structural o member ⟨by omega, by omega⟩
  · cases stepped

end States

-- Work on one cache leaves the others as they are.
theorem others_keep (caches idx other : Nat) (more : Nat → List Nat) (m after : Memory) (touched free : List Nat) (layout : Layout caches more) (known : idx < objCnt)
    (also : other < objCnt) (differ : other ≠ idx) (touchedIn : ∀ n ∈ touched, n ∈ allObjects more idx) (freeIn : ∀ n ∈ free, n ∈ allObjects more other)
    (only : Only (Touch caches idx (more idx) touched) m after) (inv : CacheInv caches other m (more other) free) :
    CacheInv caches other after (more other) free :=
  cache_keep caches other m after (more other) free _ inv only fun a structural =>
    touch_apart caches more layout other idx free touched a also known differ freeIn touchedIn (structural_touch caches other (more other) free a structural)

-- A call writes to none of the objects in use.
def Spares (live : List Object) (m after : Memory) : Prop :=
  Only (fun a => ∀ o ∈ live, ¬ (o.addr < a + 8 ∧ a < o.addr + objSize o.idx)) m after

theorem touch_spares (caches idx : Nat) (more : Nat → List Nat) (touched : List Nat) (m after : Memory) (live : List Object)
    (layout : Layout caches more) (known : idx < objCnt) (touchedIn : ∀ n ∈ touched, n ∈ allObjects more idx)
    (liveIn : ∀ o ∈ live, o.idx < objCnt ∧ o.addr ∈ allObjects more o.idx ∧ (o.idx = idx → o.addr ∉ touched))
    (only : Only (Touch caches idx (more idx) touched) m after) : Spares live m after :=
  only_mono _ _ m after (fun a inside o member =>
    touch_object caches more layout idx o.idx touched o.addr a known (liveIn o member).1 touchedIn (liveIn o member).2.1
      (fun same => (liveIn o member).2.2 same.symm) inside) only

theorem live_of_cons (s : System) (m : Memory) (o : Object) (pages : List Nat) (idx : Nat) :
    liveOf ⟨m, o :: s.live, pages⟩ idx = (if o.idx = idx then [o.addr] else []) ++ liveOf s idx := by
  by_cases here : o.idx = idx
  · simp [liveOf, here]
  · simp [liveOf, here]

theorem live_of_perm (s : System) (m : Memory) (others : List Object) (pages : List Nat) (idx : Nat) (shape : s.live.Perm others) :
    (liveOf s idx).Perm (liveOf ⟨m, others, pages⟩ idx) := (shape.filter _).map _

theorem live_of_split (s : System) (m : Memory) (o : Object) (first last : List Object) (pages : List Nat) (idx : Nat)
    (split : s.live = first ++ o :: last) :
    (liveOf s idx).Perm ((if o.idx = idx then [o.addr] else []) ++ liveOf ⟨m, first ++ last, pages⟩ idx) := by
  rw [← live_of_cons ⟨m, first ++ last, pages⟩ m o pages idx]
  refine live_of_perm s m (o :: (first ++ last)) pages idx ?_
  rw [split]
  exact List.perm_middle

theorem page_place (page : Nat) : page2va page % pageSize = 0 := by
  simp only [page2va, pageSize]
  omega

theorem page_injective (page other : Nat) (same : page2va page = page2va other) : page = other := by
  simp only [page2va, pageSize] at same
  omega

section Calls

variable (caches npage : Nat) (s : System) (slabs free : Nat → List Nat) (inv : Inv caches s slabs free) (idx : Nat) (known : idx < objCnt)

include inv known

-- slab_alloc adds a slab whose objects are all free.
theorem grow_inv (second : 1 ≤ idx) (page : Nat) (valid : page < npage) (fresh : page ∉ s.pages)
    (away : page2va page + pageSize ≤ caches ∨ cacheAt caches objCnt ≤ page2va page) :
    ∃ after, slabAlloc npage s.memory (cacheAt caches idx) (some page) = some (true, after) ∧ Spares s.live s.memory after ∧
      Inv caches ⟨after, s.live, page :: s.pages⟩ (Function.update slabs idx (page2va page :: slabs idx))
        (Function.update free idx ((objects idx (page2va page)).reverse ++ free idx)) := by
  have notTaken : ∀ i < objCnt, page2va page ∉ slabs i := by
    intro i inside member
    obtain ⟨other, given, same⟩ := inv.taken i inside _ member
    exact fresh (page_injective _ _ same ▸ given)
  have here : Function.update slabs idx (page2va page :: slabs idx) idx = page2va page :: slabs idx := Function.update_self _ _ _
  have else' : ∀ i, i ≠ idx → Function.update slabs idx (page2va page :: slabs idx) i = slabs i := fun i other => Function.update_of_ne other _ _
  generalize Function.update slabs idx (page2va page :: slabs idx) = more at here else'
  have members : ∀ i slab, slab ∈ more i → (i = idx ∧ slab = page2va page) ∨ slab ∈ slabs i := by
    intro i slab member
    by_cases same : i = idx
    · subst same
      rw [here] at member
      exact (List.mem_cons.mp member).imp (fun new => ⟨rfl, new⟩) id
    · exact .inr (else' i same ▸ member)
  have layout : Layout caches more := by
    refine ⟨?_, fun i inside slab member => ?_, fun i inside slab member => ?_, fun i inside => ?_, fun i iIn j jIn slab left right => ?_⟩
    · rw [else' 0 (by omega), inv.layout.none8]
    · rcases members i slab member with ⟨_, rfl⟩ | old
      · exact page_place page
      · exact inv.layout.aligned i inside slab old
    · rcases members i slab member with ⟨_, rfl⟩ | old
      · exact away
      · exact inv.layout.away i inside slab old
    · by_cases same : i = idx
      · subst same
        rw [here]
        exact List.nodup_cons.mpr ⟨notTaken i inside, inv.layout.nodup i inside⟩
      · rw [else' i same]
        exact inv.layout.nodup i inside
    · rcases members i slab left with ⟨rfl, rfl⟩ | oldLeft
      · rcases members j _ right with ⟨rfl, _⟩ | oldRight
        · rfl
        · exact absurd oldRight (notTaken j jIn)
      · rcases members j slab right with ⟨rfl, rfl⟩ | oldRight
        · exact absurd oldLeft (notTaken i iIn)
        · exact inv.layout.apart i iIn j jIn slab oldLeft oldRight
  have parts : allObjects more idx = objects idx (page2va page) ++ allObjects slabs idx := by rw [allObjects, here, List.flatMap_cons, allObjects]
  have within : ∀ i n, n ∈ allObjects slabs i → n ∈ allObjects more i := by
    intro i n member
    by_cases same : i = idx
    · subst same
      rw [parts]
      exact List.mem_append_right _ member
    · rwa [allObjects, else' i same]
  have freeIn : ∀ i < objCnt, ∀ n ∈ free i, n ∈ allObjects slabs i := fun i inside n member => free_in caches s slabs free inv i n inside member
  obtain ⟨after, ran, grown, only⟩ := slab_alloc_spec caches slabs more inv.layout layout idx known (page2va page) here npage page s.memory (free idx) valid rfl
    (freeIn idx known) (inv.kept idx known)
  have touchedIn : ∀ n ∈ (objects idx (page2va page)).reverse ++ free idx, n ∈ allObjects more idx := by
    intro n member
    rcases List.mem_append.mp member with new | old
    · rw [parts]
      exact List.mem_append_left _ (List.mem_reverse.mp new)
    · exact within idx n (freeIn idx known n old)
  have apart := all_objects_nodup caches more layout idx known
  rw [parts] at apart
  refine ⟨after, ran, touch_spares caches idx more _ _ _ _ layout known touchedIn (fun o member => ?_) only, layout, fun i inside => ?_, fun i inside => ?_,
    inv.requests, fun i inside slab member => ?_⟩
  · obtain ⟨also, inObjects, notFree⟩ := live_in caches s slabs free inv o member
    refine ⟨also, within _ _ inObjects, fun same both => ?_⟩
    rcases List.mem_append.mp both with new | old
    · exact List.disjoint_of_nodup_append apart (List.mem_reverse.mp new) (same ▸ inObjects)
    · exact notFree (same ▸ old)
  · by_cases same : i = idx
    · subst same
      rw [Function.update_self]
      exact grown
    · rw [Function.update_of_ne same]
      have before := inv.kept i inside
      rw [← else' i same] at before
      exact others_keep caches idx i more s.memory after _ (free i) layout known inside same touchedIn (fun n member => within i n (freeIn i inside n member)) only before
  · by_cases same : i = idx
    · subst same
      rw [Function.update_self, parts, List.append_assoc]
      exact (List.reverse_perm _).append (inv.exact i inside)
    · rw [Function.update_of_ne same, allObjects, else' i same]
      exact inv.exact i inside
  · rcases members i slab member with ⟨_, rfl⟩ | old
    · exact ⟨page, by simp, rfl⟩
    · obtain ⟨other, given, same⟩ := inv.taken i inside slab old
      exact ⟨other, List.mem_cons_of_mem page given, same⟩

theorem take_inv (obj size : Nat) (rest : List Nat) (first : free idx = obj :: rest) (request : requestIdx size = some idx) :
    ∃ after, takeObject s.memory (cacheAt caches idx) = (some obj, after) ∧ Spares s.live s.memory after ∧
      Inv caches ⟨after, ⟨obj, size⟩ :: s.live, s.pages⟩ slabs (Function.update free idx rest) := by
  have freeIn : ∀ i < objCnt, ∀ n ∈ free i, n ∈ allObjects slabs i := fun i inside n member => free_in caches s slabs free inv i n inside member
  have touchedIn : ∀ n ∈ obj :: rest, n ∈ allObjects slabs idx := fun n member => freeIn idx known n (first ▸ member)
  have filled : slabs idx ≠ [] := by
    intro empty
    have inside := touchedIn obj (by simp)
    simp [allObjects, empty] at inside
  have before := inv.kept idx known
  rw [first] at before
  obtain ⟨after, ran, taken, only⟩ := take_object_spec caches slabs inv.layout idx known s.memory obj rest filled touchedIn before
  have own : Object.idx ⟨obj, size⟩ = idx := by simp [Object.idx, request]
  refine ⟨after, ran, touch_spares caches idx slabs _ _ _ _ inv.layout known touchedIn (fun o member => ?_) only, inv.layout, fun i inside => ?_, fun i inside => ?_,
    fun o member => ?_, inv.taken⟩
  · obtain ⟨also, inObjects, notFree⟩ := live_in caches s slabs free inv o member
    exact ⟨also, inObjects, fun same => by rwa [← first, ← same]⟩
  · by_cases same : i = idx
    · subst same
      rw [Function.update_self]
      exact taken
    · rw [Function.update_of_ne same]
      exact others_keep caches idx i slabs s.memory after _ (free i) inv.layout known inside same touchedIn (freeIn i inside) only (inv.kept i inside)
  · rw [live_of_cons, own]
    by_cases same : i = idx
    · subst same
      rw [Function.update_self, if_pos rfl]
      refine List.Perm.trans List.perm_middle ?_
      have exact' := inv.exact i inside
      rwa [first] at exact'
    · rw [Function.update_of_ne same, if_neg fun back => same back.symm]
      exact inv.exact i inside
  · rcases List.mem_cons.mp member with rfl | old
    · rw [own]
      exact request
    · exact inv.requests o old

end Calls

section Steps

variable (caches npage : Nat) (s : System) (slabs free : Nat → List Nat) (inv : Inv caches s slabs free)

include inv

theorem inv_pages (m : Memory) (pages : List Nat) (same : m.word = s.memory.word) (more : ∀ p ∈ s.pages, p ∈ pages) : Inv caches ⟨m, s.live, pages⟩ slabs free where
  layout := inv.layout
  kept := fun idx known => by
    have kept := cache_log caches idx s.memory _ _ m.written (inv.kept idx known)
    rwa [← same] at kept
  exact := inv.exact
  requests := inv.requests
  taken := fun idx known slab member => by
    obtain ⟨page, given, same⟩ := inv.taken idx known slab member
    exact ⟨page, more page given, same⟩

-- kmalloc refuses, or it takes the first free object, of a new slab where there was none.
theorem kmalloc_cases (size : Nat) (page : Option Nat) (request : 1 ≤ size → size ≤ 8 → page = none) (given : Given caches s (.kmalloc size page)) :
    ∃ next, s.step caches npage (.kmalloc size page) = some next ∧
      ((next.memory = ⟨s.memory.word, []⟩ ∧ (∀ idx ∈ requestIdx size, NeedsSlab s.memory (cacheAt caches idx)) ∧ Inv caches next slabs free) ∨
        (∃ idx obj rest, idx < objCnt ∧ requestIdx size = some idx ∧ ¬ NeedsSlab s.memory (cacheAt caches idx) ∧ free idx = obj :: rest ∧
          takeObject ⟨s.memory.word, []⟩ (cacheAt caches idx) = (some obj, next.memory) ∧ Spares s.live ⟨s.memory.word, []⟩ next.memory ∧
          Inv caches next slabs (Function.update free idx rest)) ∨
        ∃ idx p mid obj rest, idx < objCnt ∧ requestIdx size = some idx ∧ NeedsSlab s.memory (cacheAt caches idx) ∧ p < npage ∧
          slabAlloc npage ⟨s.memory.word, []⟩ (cacheAt caches idx) (some p) = some (true, mid) ∧
          Inv caches ⟨mid, s.live, p :: s.pages⟩ (Function.update slabs idx (page2va p :: slabs idx))
            (Function.update free idx ((objects idx (page2va p)).reverse ++ free idx)) ∧
          (objects idx (page2va p)).reverse ++ free idx = obj :: rest ∧
          takeObject mid (cacheAt caches idx) = (some obj, next.memory) ∧ Spares s.live ⟨s.memory.word, []⟩ next.memory ∧
          Inv caches next (Function.update slabs idx (page2va p :: slabs idx))
            (Function.update (Function.update free idx ((objects idx (page2va p)).reverse ++ free idx)) idx rest)) := by
  simp only [System.step]
  cases found : requestIdx size with
  | none =>
      refine ⟨⟨⟨s.memory.word, []⟩, s.live, pagesTaken caches s size page ++ s.pages⟩, by simp [kmalloc, found], .inl ⟨rfl, by simp, ?_⟩⟩
      exact inv_pages caches s slabs free inv _ _ rfl fun p member => List.mem_append_right _ member
  | some idx =>
      obtain ⟨known, positive, _, large⟩ := request_idx_spec size idx found
      have start := inv_pages caches s slabs free inv ⟨s.memory.word, []⟩ s.pages rfl fun _ member => member
      by_cases needs : NeedsSlab ⟨s.memory.word, []⟩ (cacheAt caches idx)
      · have pages : pagesTaken caches s size page = page.toList := by
          simp only [pagesTaken, found]
          exact if_pos needs
        have refused : ∀ i ∈ some idx, NeedsSlab s.memory (cacheAt caches i) := fun i same => Option.some.inj same ▸ needs
        rw [pages]
        cases page with
        | none => exact ⟨⟨⟨s.memory.word, []⟩, s.live, s.pages⟩, by simp [kmalloc, found, needs, slabAlloc], .inl ⟨rfl, refused, start⟩⟩
        | some p =>
            obtain ⟨fresh, away⟩ := given p rfl
            by_cases valid : p < npage
            · have second : 1 ≤ idx := large (by
                by_contra little
                cases request positive (by omega))
              obtain ⟨mid, ran, spared, grown⟩ := grow_inv caches npage _ slabs free start idx known second p valid fresh away
              obtain ⟨obj, rest, shape⟩ : ∃ obj rest, (objects idx (page2va p)).reverse ++ free idx = obj :: rest := by
                refine List.exists_cons_of_ne_nil fun empty => ?_
                have nothing : objsPerSlab idx = 0 := by simpa [objects] using (List.append_eq_nil_iff.mp empty).1
                have filled : ∀ i < objCnt, objsPerSlab i ≠ 0 := by decide
                exact filled idx known nothing
              have first := (Function.update_self idx ((objects idx (page2va p)).reverse ++ free idx) free).trans shape
              obtain ⟨after, took, sparedAgain, taken⟩ := take_inv caches _ _ _ grown idx known obj size rest first found
              replace ran : slabAlloc npage ⟨s.memory.word, []⟩ (cacheAt caches idx) (some p) = some (true, mid) := ran
              replace took : takeObject mid (cacheAt caches idx) = (some obj, after) := took
              exact ⟨⟨after, ⟨obj, size⟩ :: s.live, p :: s.pages⟩, by simp [kmalloc, found, needs, ran, took],
                .inr (.inr ⟨idx, p, mid, obj, rest, known, rfl, needs, valid, ran, grown, shape, took, only_trans _ _ _ _ spared sparedAgain, taken⟩)⟩
            · refine ⟨⟨⟨s.memory.word, []⟩, s.live, p :: s.pages⟩, by simp [kmalloc, found, needs, slabAlloc, Nat.le_of_not_lt valid], .inl ⟨rfl, refused, ?_⟩⟩
              exact inv_pages caches s slabs free inv _ _ rfl fun _ member => List.mem_cons_of_mem p member
      · have pages : pagesTaken caches s size page = [] := by
          simp only [pagesTaken, found]
          exact if_neg needs
        have filled : free idx ≠ [] := fun empty =>
          needs (.inr ((list_empty_iff _ _ _ (start.kept idx known).freeRing).mpr empty))
        obtain ⟨obj, rest, first⟩ := List.exists_cons_of_ne_nil filled
        obtain ⟨after, took, spared, taken⟩ := take_inv caches _ _ _ start idx known obj size rest first found
        replace took : takeObject ⟨s.memory.word, []⟩ (cacheAt caches idx) = (some obj, after) := took
        exact ⟨⟨after, ⟨obj, size⟩ :: s.live, s.pages⟩, by simp [kmalloc, found, needs, took, pages],
          .inr (.inl ⟨idx, obj, rest, known, rfl, needs, first, took, spared, taken⟩)⟩

theorem kmalloc_inv (size : Nat) (page : Option Nat) (request : 1 ≤ size → size ≤ 8 → page = none) (given : Given caches s (.kmalloc size page)) :
    ∃ next slabs' free', s.step caches npage (.kmalloc size page) = some next ∧ Inv caches next slabs' free' ∧ Spares s.live ⟨s.memory.word, []⟩ next.memory := by
  obtain ⟨next, stepped, result⟩ := kmalloc_cases caches npage s slabs free inv size page request given
  rcases result with ⟨same, _, kept⟩ | ⟨_, _, _, _, _, _, _, _, spared, kept⟩ | ⟨_, _, _, _, _, _, _, _, _, _, _, _, _, spared, kept⟩
  · exact ⟨next, _, _, stepped, kept, same ▸ only_refl _ _⟩
  · exact ⟨next, _, _, stepped, kept, spared⟩
  · exact ⟨next, _, _, stepped, kept, spared⟩

-- kfree puts an object in use in front of the free ones of its cache.
theorem kfree_cases (obj : Nat) (next : System) (stepped : s.step caches npage (.kfree obj) = some next) :
    ∃ o slab, o ∈ s.live ∧ o.addr = obj ∧ o.idx < objCnt ∧ slab ∈ slabs o.idx ∧ obj ∈ objects o.idx slab ∧ obj ∉ free o.idx ∧
      next.memory = kfree caches ⟨s.memory.word, []⟩ obj ∧
      Inv caches next slabs (Function.update free o.idx (obj :: free o.idx)) ∧ Spares next.live ⟨s.memory.word, []⟩ next.memory := by
  simp only [System.step] at stepped
  split at stepped
  · rename_i held
    obtain rfl := Option.some.inj stepped
    obtain ⟨found, inLive, here⟩ := List.any_eq_true.mp held
    obtain ⟨o, first, last, _, same, split, erased⟩ := List.exists_of_eraseP (p := fun o => decide (o.addr = obj)) inLive here
    obtain rfl : o.addr = obj := by simpa using same
    rw [erased]
    have start := inv_pages caches s slabs free inv ⟨s.memory.word, []⟩ s.pages rfl fun _ member => member
    have member : o ∈ s.live := by simp [split]
    obtain ⟨known, inObjects, notFree⟩ := live_in caches s slabs free inv o member
    obtain ⟨slab, inSlabs, part⟩ := List.mem_flatMap.mp inObjects
    have freeIn : ∀ i < objCnt, ∀ n ∈ free i, n ∈ allObjects slabs i := fun i inside n within => free_in caches s slabs free inv i n inside within
    obtain ⟨given, only⟩ := kfree_spec caches slabs inv.layout o.idx known ⟨s.memory.word, []⟩ slab o.addr (free o.idx) inSlabs part notFree
      (freeIn o.idx known) (start.kept o.idx known)
    have touchedIn : ∀ n ∈ o.addr :: free o.idx, n ∈ allObjects slabs o.idx := by
      intro n within
      rcases List.mem_cons.mp within with rfl | old
      · exact inObjects
      · exact freeIn o.idx known n old
    have shape : s.live.Perm (o :: (first ++ last)) := by
      rw [split]
      exact List.perm_middle
    have exact' : ∀ i < objCnt, (free i ++ ((if o.idx = i then [o.addr] else []) ++ liveOf ⟨s.memory, first ++ last, s.pages⟩ i)).Perm (allObjects slabs i) := by
      intro i inside
      exact ((live_of_split s s.memory o first last s.pages i split).symm.append_left (free i)).trans (inv.exact i inside)
    have fewer : ∀ other ∈ first ++ last, other ∈ s.live := fun other within => shape.mem_iff.mpr (List.mem_cons_of_mem o within)
    have freed : ∀ other ∈ first ++ last, other.idx = o.idx → other.addr ∉ o.addr :: free o.idx := by
      intro other within same inTouched
      have nodup := (exact' o.idx known).nodup_iff.mpr (all_objects_nodup caches slabs inv.layout o.idx known)
      rw [if_pos rfl] at nodup
      have inOthers : other.addr ∈ liveOf ⟨s.memory, first ++ last, s.pages⟩ o.idx := List.mem_map_of_mem (List.mem_filter.mpr ⟨within, by simp [same]⟩)
      rcases List.mem_cons.mp inTouched with here | old
      · have apart := (List.nodup_cons.mp (List.Nodup.of_append_right nodup)).1
        exact apart (here ▸ inOthers)
      · exact List.disjoint_of_nodup_append nodup old (List.mem_append_right _ inOthers)
    refine ⟨o, slab, member, rfl, known, inSlabs, part, notFree, rfl,
      ⟨inv.layout, fun i inside => ?_, fun i inside => ?_, fun other within => inv.requests other (fewer other within), inv.taken⟩, ?_⟩
    · by_cases same : i = o.idx
      · subst same
        rw [Function.update_self]
        exact given
      · rw [Function.update_of_ne same]
        exact others_keep caches o.idx i slabs ⟨s.memory.word, []⟩ _ _ (free i) inv.layout known inside same touchedIn (freeIn i inside) only (start.kept i inside)
    · have whole := exact' i inside
      by_cases same : i = o.idx
      · subst same
        rw [if_pos rfl] at whole
        rw [Function.update_self]
        exact List.perm_middle.symm.trans whole
      · rw [if_neg fun back => same back.symm, List.nil_append] at whole
        rw [Function.update_of_ne same]
        exact whole
    · refine touch_spares caches o.idx slabs _ _ _ _ inv.layout known touchedIn (fun other within => ?_) only
      obtain ⟨also, inside, _⟩ := live_in caches s slabs free inv other (fewer other within)
      exact ⟨also, inside, freed other within⟩
  · cases stepped

theorem kfree_inv (obj : Nat) (next : System) (stepped : s.step caches npage (.kfree obj) = some next) :
    ∃ free', Inv caches next slabs free' ∧ Spares next.live ⟨s.memory.word, []⟩ next.memory := by
  obtain ⟨_, _, _, _, _, _, _, _, _, kept, spared⟩ := kfree_cases caches npage s slabs free inv obj next stepped
  exact ⟨_, kept, spared⟩

end Steps

end Ucore.Slub
