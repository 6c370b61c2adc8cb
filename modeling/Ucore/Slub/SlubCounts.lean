import Ucore.Slub.SlubRuns

set_option autoImplicit false

namespace Ucore.Slub

open Ucore.Lib

open Ucore.Lib.Memory

-- The count in the header of a slab is that of its own objects on the free list
-- of the cache.
def Counted (m : Memory) (slabs free : Nat → List Nat) : Prop :=
  ∀ idx < objCnt, ∀ slab ∈ slabs idx, m.word (freeObjCnt slab) = (free idx).countP fun obj => obj ∈ objects idx slab

def CountsRight (caches : Nat) (s : System) : Prop := ∃ slabs free, SlubInvariant caches s slabs free ∧ Counted s.memory slabs free

-- The condition on a step: an object that is taken without a new slab lies in the
-- first slab of the cache, which kmalloc charges.
def ChargesOwner (caches : Nat) (s : System) : Call → Prop
  | .kmalloc size _ => ∀ idx ∈ requestIdx size, NeedsSlab s.memory (cacheAt caches idx) ∨
      s.memory.load (freeObjList (cacheAt caches idx) + 8) - s.memory.load (freeObjList (cacheAt caches idx) + 8) % pageSize =
        s.memory.load (slabList (cacheAt caches idx) + 8) - 24
  | _ => True

instance (caches : Nat) (s : System) : (call : Call) → Decidable (ChargesOwner caches s call)
  | .kmalloc size _ => inferInstanceAs (Decidable (∀ idx ∈ requestIdx size, NeedsSlab s.memory (cacheAt caches idx) ∨
      s.memory.load (freeObjList (cacheAt caches idx) + 8) - s.memory.load (freeObjList (cacheAt caches idx) + 8) % pageSize =
        s.memory.load (slabList (cacheAt caches idx) + 8) - 24))
  | .kfree _ => .isTrue trivial
  | .use _ _ _ => .isTrue trivial

theorem count_few (idx slab : Nat) (free : List Nat) (nodup : free.Nodup) (known : idx < objCnt) :
    (free.countP fun obj => obj ∈ objects idx slab) < 2 ^ 64 := by
  have inside : (free.filter fun obj => obj ∈ objects idx slab) ⊆ objects idx slab := fun obj member => by
    simpa using (List.mem_filter.mp member).2
  have bound := (List.subperm_of_subset (nodup.filter _) inside).length_le
  have count : (objects idx slab).length = objsPerSlab idx := by rw [objects, List.length_map, List.length_range]
  have few : ∀ i < objCnt, objsPerSlab i < 2 ^ 64 := by decide
  rw [List.countP_eq_length_filter]
  have := few idx known
  omega

section Slabs

variable (caches : Nat) (slabs : Nat → List Nat) (layout : Layout caches slabs)

include layout

theorem object_page (idx slab obj : Nat) (known : idx < objCnt) (member : slab ∈ slabs idx) (part : obj ∈ objects idx slab) :
    obj - obj % pageSize = slab := by
  have aligned := layout.aligned idx known slab member
  obtain ⟨lower, upper, _⟩ := object_range idx slab obj known (layout_second caches slabs layout idx slab member) aligned part
  have wide := (class_word idx known).1
  simp only [pageSize, slabHeaderSize] at *
  omega

theorem counter_apart (i j slab : Nat) (free : List Nat) (known : i < objCnt) (also : j < objCnt) (member : slab ∈ slabs j)
    (freeIn : ∀ n ∈ free, n ∈ allObjects slabs i) : ¬ NodeWord (freeObjList (cacheAt caches i) :: free) (freeObjCnt slab) := by
  intro word
  have header := header_word caches slabs layout j also slab (slab + 16) member (by omega)
  rcases free_word caches slabs layout i known free freeIn _ word with same | same | ⟨_, beyond⟩
  · exact own_word caches i known 24 (by decide) (same ▸ header.1)
  · exact own_word caches i known 32 (by decide) (same ▸ header.1)
  · simp only [freeObjCnt] at beyond
    omega

end Slabs

section Steps

variable (caches : Nat) (s : System) (slabs free : Nat → List Nat) (inv : Inv caches s slabs free) (idx : Nat) (known : idx < objCnt)

include inv known

-- The charge is right just if the object is of the first slab.
theorem take_counted (counted : Counted s.memory slabs free) (obj first : Nat) (rest others : List Nat) (after : Memory)
    (shape : slabs idx = first :: others) (head : free idx = obj :: rest)
    (took : takeObject s.memory (cacheAt caches idx) = (some obj, after)) :
    Counted after slabs (Function.update free idx rest) ↔ obj ∈ objects idx first := by
  have freeIn : ∀ n ∈ obj :: rest, n ∈ allObjects slabs idx := fun n member => free_in caches s slabs free inv idx n known (head ▸ member)
  have within : ∀ n ∈ rest, n ∈ allObjects slabs idx := fun n member => freeIn n (List.mem_cons_of_mem obj member)
  have before := inv.kept idx known
  rw [head] at before
  obtain ⟨result, _, only⟩ := take_object_result caches slabs inv.layout idx known s.memory obj first rest others shape freeIn before
  rw [took] at result
  obtain ⟨_, result⟩ := Prod.mk.inj result
  have firstIn : first ∈ slabs idx := by
    rw [shape]
    exact List.mem_cons_self
  have kept : ∀ j < objCnt, ∀ slab ∈ slabs j, (s.memory.listDel obj).word (freeObjCnt slab) = s.memory.word (freeObjCnt slab) :=
    fun j also slab member => only.kept _ (counter_apart caches slabs inv.layout idx j slab rest known also member within)
  have charged : after.word (freeObjCnt first) = (s.memory.word (freeObjCnt first) + 2 ^ 64 - 1) % 2 ^ 64 := by
    rw [result, load, kept idx known first firstIn]
    exact Function.update_self _ _ _
  have uncharged : ∀ j < objCnt, ∀ slab ∈ slabs j, slab ≠ first → after.word (freeObjCnt slab) = s.memory.word (freeObjCnt slab) := by
    intro j also slab member other
    have apart : freeObjCnt slab ≠ freeObjCnt first := fun same => other (Nat.add_right_cancel same)
    rw [result]
    exact (Function.update_of_ne apart _ _).trans (kept j also slab member)
  have old : ∀ slab ∈ slabs idx, s.memory.word (freeObjCnt slab) =
      (rest.countP fun n => n ∈ objects idx slab) + if obj ∈ objects idx slab then 1 else 0 := by
    intro slab member
    rw [counted idx known slab member, head, List.countP_cons]
    simp
  have few := count_few idx first rest (List.nodup_cons.mp (List.nodup_cons.mp before.freeRing.2).2).2 known
  constructor
  · intro right
    by_contra outside
    have now := right idx known first firstIn
    rw [Function.update_self, charged, old first firstIn, if_neg outside] at now
    omega
  · intro owned j also slab member
    by_cases same : j = idx
    · subst same
      rw [Function.update_self]
      by_cases here : slab = first
      · rw [here, charged, old first firstIn, if_pos owned]
        omega
      · have outside : obj ∉ objects j slab := fun part => here
          ((object_page caches slabs inv.layout j slab obj known member part).symm.trans
            (object_page caches slabs inv.layout j first obj known firstIn owned))
        rw [uncharged j also slab member here, old slab member, if_neg outside, Nat.add_zero]
    · have here : slab ≠ first := fun equal => same (inv.layout.apart j also idx known slab member (equal ▸ firstIn))
      rw [Function.update_of_ne same, uncharged j also slab member here]
      exact counted j also slab member

theorem free_counted (counted : Counted s.memory slabs free) (obj slab : Nat) (member : slab ∈ slabs idx) (part : obj ∈ objects idx slab)
    (notFree : obj ∉ free idx) : Counted (kfree caches s.memory obj) slabs (Function.update free idx (obj :: free idx)) := by
  have freeIn : ∀ n ∈ free idx, n ∈ allObjects slabs idx := fun n inside => free_in caches s slabs free inv idx n known inside
  have within : ∀ n ∈ obj :: free idx, n ∈ allObjects slabs idx := by
    intro n inside
    cases List.mem_cons.mp inside with
    | inl same => exact same ▸ List.mem_flatMap.mpr ⟨slab, member, part⟩
    | inr old => exact freeIn n old
  obtain ⟨result, added, only⟩ := kfree_result caches slabs inv.layout idx known s.memory slab obj (free idx) member part notFree freeIn (inv.kept idx known)
  have kept : ∀ j < objCnt, ∀ other ∈ slabs j,
      (s.memory.listAdd (freeObjList (cacheAt caches idx)) obj).word (freeObjCnt other) = s.memory.word (freeObjCnt other) :=
    fun j also other inside => only.kept _ (counter_apart caches slabs inv.layout idx j other (obj :: free idx) known also inside within)
  have few := count_few idx slab (obj :: free idx) (List.nodup_cons.mp added.freeRing.2).2 known
  intro j also other inside
  rw [result]
  by_cases same : j = idx
  · subst same
    rw [Function.update_self, List.countP_cons]
    rw [List.countP_cons] at few
    by_cases here : other = slab
    · subst here
      simp only [part, decide_true, if_true] at few ⊢
      refine (Function.update_self _ _ _).trans ?_
      rw [load, kept j also other inside, counted j also other inside, Nat.mod_eq_of_lt few]
    · have outside : obj ∉ objects j other := fun also' => here
        ((object_page caches slabs inv.layout j other obj known inside also').symm.trans
          (object_page caches slabs inv.layout j slab obj known member part))
      have apart : freeObjCnt other ≠ freeObjCnt slab := fun equal => here (Nat.add_right_cancel equal)
      simp only [outside, decide_false, Bool.false_eq_true, if_false, Nat.add_zero]
      exact (Function.update_of_ne apart _ _).trans ((kept j also other inside).trans (counted j also other inside))
  · have here : other ≠ slab := fun equal => same (inv.layout.apart j also idx known other inside (equal ▸ member))
    have apart : freeObjCnt other ≠ freeObjCnt slab := fun equal => here (Nat.add_right_cancel equal)
    rw [Function.update_of_ne same]
    exact (Function.update_of_ne apart _ _).trans ((kept j also other inside).trans (counted j also other inside))

theorem grow_counted (counted : Counted s.memory slabs free) (npage page : Nat) (valid : page < npage) (mid : Memory) (pages : List Nat)
    (ran : slabAlloc npage s.memory (cacheAt caches idx) (some page) = some (true, mid))
    (grown : Inv caches ⟨mid, s.live, pages⟩ (Function.update slabs idx (page2va page :: slabs idx))
      (Function.update free idx ((objects idx (page2va page)).reverse ++ free idx))) :
    Counted mid (Function.update slabs idx (page2va page :: slabs idx))
      (Function.update free idx ((objects idx (page2va page)).reverse ++ free idx)) := by
  have freeIn : ∀ n ∈ free idx, n ∈ allObjects slabs idx := fun n inside => free_in caches s slabs free inv idx n known inside
  have here := Function.update_self idx (page2va page :: slabs idx) slabs
  have elsewhere : ∀ j, j ≠ idx → Function.update slabs idx (page2va page :: slabs idx) j = slabs j := fun j other => Function.update_of_ne other _ _
  have wider := grown.layout
  generalize Function.update slabs idx (page2va page :: slabs idx) = more at here elsewhere wider
  obtain ⟨linked, threaded, allocs, _, first, counter, threadOnly⟩ := slab_alloc_result caches slabs more inv.layout wider idx known (page2va page) here npage
    page s.memory (free idx) valid rfl freeIn (inv.kept idx known)
  rw [ran] at allocs
  obtain ⟨_, result⟩ := Prod.mk.inj (Option.some.inj allocs)
  have newIn : page2va page ∈ more idx := by
    rw [here]
    exact List.mem_cons_self
  have oldIn : ∀ j, ∀ slab ∈ slabs j, slab ∈ more j := by
    intro j slab member
    by_cases same : j = idx
    · subst same
      rw [here]
      exact List.mem_cons_of_mem _ member
    · rw [elsewhere j same]
      exact member
  have parts : allObjects more idx = objects idx (page2va page) ++ allObjects slabs idx := by rw [allObjects, here, List.flatMap_cons, allObjects]
  have allIn : ∀ n ∈ objects idx (page2va page) ++ free idx, n ∈ allObjects more idx := by
    intro n member
    rw [parts]
    exact (List.mem_append.mp member).elim (List.mem_append_left _) fun old => List.mem_append_right _ (freeIn n old)
  -- Threading the objects and the state of the cache leave every count.
  have late : ∀ j < objCnt, ∀ slab ∈ more j, mid.word (freeObjCnt slab) = linked.word (freeObjCnt slab) := by
    intro j also slab member
    have header := header_word caches more wider j also slab (slab + 16) member (by omega)
    have own := own_word caches idx known 56 (by decide)
    have apart : freeObjCnt slab ≠ stateOf (cacheAt caches idx) := by
      simp only [freeObjCnt, stateOf]
      omega
    rw [result]
    exact (Function.update_of_ne apart _ _).trans (threadOnly.kept _ (counter_apart caches more wider idx j slab _ known also member allIn))
  have early : ∀ j < objCnt, ∀ slab ∈ more j, slab ≠ page2va page → linked.word (freeObjCnt slab) = s.memory.word (freeObjCnt slab) := by
    intro j also slab member other
    refine first.kept _ fun touched => ?_
    have aligned := wider.aligned j also slab member
    have alignedNew := wider.aligned idx known _ newIn
    have header := header_word caches more wider j also slab (slab + 16) member (by omega)
    rcases touched with inHeader | word
    · simp only [freeObjCnt, pageSize] at inHeader aligned alignedNew
      omega
    · rcases slab_word caches more wider idx known _ word with same | same | ⟨_, _, third, inThird, part⟩
      · exact own_word caches idx known 40 (by decide) (same ▸ header.1)
      · exact own_word caches idx known 48 (by decide) (same ▸ header.1)
      · have alignedThird := wider.aligned idx known third inThird
        simp only [freeObjCnt, pageSize] at part aligned alignedThird
        omega
  have freeOther : ∀ slab ∈ slabs idx, ∀ n ∈ objects idx (page2va page), n ∉ objects idx slab := by
    intro slab member n inNew inOld
    have nodup := wider.nodup idx known
    rw [here] at nodup
    have same := (object_page caches more wider idx slab n known (oldIn idx slab member) inOld).symm.trans
      (object_page caches more wider idx (page2va page) n known newIn inNew)
    exact (List.nodup_cons.mp nodup).1 (same ▸ member)
  have freeNew : ∀ n ∈ free idx, n ∉ objects idx (page2va page) := by
    intro n inFree inNew
    obtain ⟨slab, member, part⟩ := List.mem_flatMap.mp (freeIn n inFree)
    exact freeOther slab member n inNew part
  intro j also slab member
  by_cases same : j = idx
  · subst same
    rw [Function.update_self, List.countP_append, List.countP_reverse, late j also slab member]
    by_cases new : slab = page2va page
    · have all : ((objects j slab).countP fun n => n ∈ objects j slab) = (objects j slab).length :=
        List.countP_eq_length.mpr fun n inside => decide_eq_true inside
      have none : ((free j).countP fun n => n ∈ objects j slab) = 0 :=
        List.countP_eq_zero.mpr fun n inside found => freeNew n inside (new ▸ of_decide_eq_true found)
      rw [new] at all none ⊢
      rw [counter, all, none, objects, List.length_map, List.length_range]
      exact (inv.kept j known).counted
    · have old : slab ∈ slabs j := by
        rw [here] at member
        exact (List.mem_cons.mp member).resolve_left new
      have none : ((objects j (page2va page)).countP fun n => n ∈ objects j slab) = 0 :=
        List.countP_eq_zero.mpr fun n inside found => freeOther slab old n inside (of_decide_eq_true found)
      rw [early j also slab member new, none, Nat.zero_add]
      exact counted j known slab old
  · have new : slab ≠ page2va page := fun equal => same (wider.apart j also idx known slab member (equal ▸ newIn))
    rw [Function.update_of_ne same, late j also slab member, early j also slab member new]
    rw [elsewhere j same] at member
    exact counted j also slab member

end Steps

theorem use_counted (caches npage : Nat) (s next : System) (slabs free : Nat → List Nat) (inv : Inv caches s slabs free)
    (counted : Counted s.memory slabs free) (obj index value : Nat) (stepped : s.step caches npage (.use obj index value) = some next) :
    Counted next.memory slabs free := by
  simp only [System.step] at stepped
  by_cases writable : Writable s obj index
  · rw [if_pos writable] at stepped
    obtain rfl := Option.some.inj stepped
    obtain ⟨o, member, rfl, fits⟩ := writable
    obtain ⟨known, inObjects, notFree⟩ := live_in caches s slabs free inv o member
    obtain ⟨_, _, enough, _⟩ := request_idx_spec o.size o.idx (inv.requests o member)
    have wide := class_word o.idx known
    intro j also slab inside
    have apart := touch_object caches slabs inv.layout j o.idx (free j) o.addr (freeObjCnt slab) also known
      (fun n inFree => free_in caches s slabs free inv j n also inFree) inObjects (fun same => same ▸ notFree)
      (touch_header caches j (slabs j) (free j) slab 16 inside (by decide))
    have other : freeObjCnt slab ≠ o.addr + 8 * index := by omega
    exact (Function.update_of_ne other _ _).trans (counted j also slab inside)
  · rw [if_neg writable] at stepped
    cases stepped

-- The lists are those that the memory says.
theorem counts_right_iff (caches : Nat) (s : System) (slabs free : Nat → List Nat) (inv : Inv caches s slabs free) :
    CountsRight caches s ↔ Counted s.memory slabs free := by
  constructor
  · intro right
    obtain ⟨slabs', free', shown, counted⟩ := right
    intro idx known slab member
    have sameFree := Links.ring_unique _ _ _ _ (shown.freeLists idx known) (inv.kept idx known).freeRing
    have sameLinks := Links.ring_unique _ _ _ _ (shown.slabLists idx known) (inv.kept idx known).slabRing
    have sameSlabs : slabs' idx = slabs idx := List.map_injective_iff.mpr (fun a b same => Nat.add_right_cancel same) sameLinks
    have here := counted idx known slab (sameSlabs ▸ member)
    rw [sameFree] at here
    exact here
  · exact fun counted => ⟨slabs, free, slub_invariant_of caches s slabs free inv, counted⟩

section Runs

variable (caches npage : Nat)

-- From a state with right counts a step leads to one exactly where the charge is right.
theorem step_counted (s next : System) (slabs free : Nat → List Nat) (inv : Inv caches s slabs free) (counted : Counted s.memory slabs free)
    (call : Call) (condition : Given caches s call ∧ Roomy call) (stepped : s.step caches npage call = some next) :
    ∃ slabs' free', Inv caches next slabs' free' ∧ (Counted next.memory slabs' free' ↔ ChargesOwner caches s call) := by
  obtain ⟨given, roomy⟩ := condition
  have start := inv_pages caches s slabs free inv ⟨s.memory.word, []⟩ s.pages rfl fun _ member => member
  cases call with
  | kmalloc size page =>
      obtain ⟨found, taken, result⟩ := kmalloc_cases caches npage s slabs free inv size page roomy given
      obtain rfl := Option.some.inj (taken.symm.trans stepped)
      rcases result with ⟨same, needs, kept⟩ | ⟨idx, obj, rest, known, request, needs, head, took, _, kept⟩ |
        ⟨idx, p, mid, obj, rest, known, request, needs, valid, ran, grown, shape, took, _, kept⟩
      · refine ⟨slabs, free, kept, ⟨fun _ idx asked => .inl (needs idx asked), fun _ => ?_⟩⟩
        rw [same]
        exact counted
      · have inObjects := free_in caches s slabs free inv idx obj known (head ▸ List.mem_cons_self)
        obtain ⟨slab, inSlabs, part⟩ := List.mem_flatMap.mp inObjects
        obtain ⟨first, others, slabShape⟩ := List.exists_cons_of_ne_nil (List.ne_nil_of_mem inSlabs)
        have firstIn : first ∈ slabs idx := by
          rw [slabShape]
          exact List.mem_cons_self
        have headWord : s.memory.load (freeObjList (cacheAt caches idx) + 8) = obj := by
          have ring := (inv.kept idx known).freeRing
          rw [head] at ring
          exact ring_first s.memory _ obj rest ring
        have slabWord : s.memory.load (slabList (cacheAt caches idx) + 8) = slabLink first := by
          have ring := (inv.kept idx known).slabRing
          rw [slabShape, List.map_cons] at ring
          exact ring_first s.memory _ _ _ ring
        refine ⟨slabs, _, kept, (take_counted caches _ slabs free start idx known counted obj first rest others _ slabShape head took).trans ?_⟩
        have page := object_page caches slabs inv.layout idx slab obj known inSlabs part
        constructor
        · intro owned i asked
          obtain rfl : idx = i := Option.some.inj (request.symm.trans asked)
          have pageFirst := object_page caches slabs inv.layout idx first obj known firstIn owned
          rw [headWord, slabWord, pageFirst, slabLink, Nat.add_sub_cancel]
          exact .inr rfl
        · intro charges
          have same := (charges idx request).resolve_left needs
          rw [headWord, slabWord, page, slabLink, Nat.add_sub_cancel] at same
          exact same ▸ part
      · have grownCounted := grow_counted caches _ slabs free start idx known counted npage p valid mid _ ran grown
        have objIn : obj ∈ objects idx (page2va p) := by
          have filled : ∀ i < objCnt, objsPerSlab i ≠ 0 := by decide
          have nonempty : (objects idx (page2va p)).reverse ≠ [] := by
            simp [objects, filled idx known]
          obtain ⟨n, more, reversed⟩ := List.exists_cons_of_ne_nil nonempty
          rw [reversed, List.cons_append] at shape
          have same : n = obj := (List.cons.inj shape).1
          have inside : n ∈ (objects idx (page2va p)).reverse := by
            rw [reversed]
            exact List.mem_cons_self
          exact same ▸ List.mem_reverse.mp inside
        refine ⟨_, _, kept, ⟨fun _ i asked => ?_, fun _ => ?_⟩⟩
        · obtain rfl : idx = i := Option.some.inj (request.symm.trans asked)
          exact .inl needs
        · exact (take_counted caches _ _ _ grown idx known grownCounted obj (page2va p) rest (slabs idx) _ (Function.update_self _ _ _)
            ((Function.update_self _ _ _).trans shape) took).mpr objIn
  | kfree obj =>
      obtain ⟨o, slab, _, _, known, inSlabs, part, notFree, memory, kept, _⟩ := kfree_cases caches npage s slabs free inv obj next stepped
      refine ⟨slabs, _, kept, ⟨fun _ => trivial, fun _ => ?_⟩⟩
      rw [memory]
      exact free_counted caches _ slabs free start o.idx known counted obj slab inSlabs part notFree
  | use obj index value =>
      exact ⟨slabs, free, use_inv caches s slabs free inv npage obj index value next stepped,
        ⟨fun _ => trivial, fun _ => use_counted caches npage s next slabs free inv counted obj index value stepped⟩⟩

theorem stuck_charges (s : System) (slabs free : Nat → List Nat) (inv : Inv caches s slabs free) (call : Call)
    (condition : Given caches s call ∧ Roomy call) (stuck : s.step caches npage call = none) : ChargesOwner caches s call := by
  cases call with
  | kmalloc size page =>
      obtain ⟨next, taken, _⟩ := kmalloc_cases caches npage s slabs free inv size page condition.2 condition.1
      rw [stuck] at taken
      cases taken
  | kfree obj => trivial
  | use obj index value => trivial

theorem run_counted (calls : List Call) (s : System) (slabs free : Nat → List Nat) (inv : Inv caches s slabs free)
    (counted : Counted s.memory slabs free)
    (met : Throughout (System.step caches npage) (fun s call => Given caches s call ∧ Roomy call) s calls) :
    Throughout (System.step caches npage) (fun s call => ∀ next ∈ s.step caches npage call, CountsRight caches next) s calls ↔
      Throughout (System.step caches npage) (ChargesOwner caches) s calls := by
  induction calls generalizing s slabs free with
  | nil => exact Iff.rfl
  | cons call calls ih =>
      obtain ⟨condition, later⟩ := met
      cases taken : s.step caches npage call with
      | none =>
          refine ⟨fun _ => ⟨stuck_charges caches npage s slabs free inv call condition taken, fun next reached => ?_⟩,
            fun _ => ⟨fun next reached => ?_, fun next reached => ?_⟩⟩
          · rw [taken] at reached
            cases reached
          · rw [taken] at reached
            cases reached
          · rw [taken] at reached
            cases reached
      | some next =>
          obtain ⟨slabs', free', kept, charged⟩ := step_counted caches npage s next slabs free inv counted call condition taken
          have right := counts_right_iff caches next slabs' free' kept
          have only : ∀ other ∈ s.step caches npage call, other = next := fun other reached => Option.some.inj (reached.symm.trans taken)
          constructor
          · intro all
            have countedNext := right.mp (all.1 next taken)
            refine ⟨charged.mp countedNext, fun other reached => ?_⟩
            obtain rfl := only other reached
            exact (ih other slabs' free' kept countedNext (later other taken)).mp (all.2 other taken)
          · intro all
            have countedNext := charged.mpr all.1
            refine ⟨fun other reached => ?_, fun other reached => ?_⟩
            · obtain rfl := only other reached
              exact right.mpr countedNext
            · obtain rfl := only other reached
              exact (ih other slabs' free' kept countedNext (later other taken)).mpr (all.2 other taken)

theorem boot_met (word : Nat → Nat) (calls : List Call) (roomy : ∀ call ∈ calls, Roomy call)
    (given : Throughout (System.step caches npage) (Given caches) (System.boot caches word) calls) :
    Throughout (System.step caches npage) (fun s call => Given caches s call ∧ Roomy call) (System.boot caches word) calls :=
  (throughout_and _ _ _ _ _).mpr ⟨given, throughout_forall _ Roomy calls _ roomy⟩

end Runs

-- In a run without a page for a request of 1 to 8 bytes the counts are right in all
-- states just if every object that is taken is of the slab that is charged.
theorem slub_counts (caches npage : Nat) (word : Nat → Nat) (calls : List Call) (roomy : ∀ call ∈ calls, Roomy call)
    (given : Throughout (System.step caches npage) (Given caches) (System.boot caches word) calls) :
    Throughout (System.step caches npage) (fun s call => ∀ next ∈ s.step caches npage call, CountsRight caches next) (System.boot caches word) calls ↔
      Throughout (System.step caches npage) (ChargesOwner caches) (System.boot caches word) calls :=
  run_counted caches npage calls _ _ _ (boot_inv caches word) (fun _ _ _ member => absurd member List.not_mem_nil)
    (boot_met caches npage word calls roomy given)

-- Sixteen objects of two slabs: the first of them fills the older slab.
def twoSlabs : List Call := .kmalloc 256 (some 0x300) :: List.replicate 14 (.kmalloc 256 none) ++ [.kmalloc 256 (some 0x301)]

-- One more of the newer slab, which comes back and is taken again, and then one of
-- the older slab comes back.
def mixedSlabs : List Call :=
  twoSlabs ++ [.kmalloc 256 none, .kfree 0xFFFFFFFFC0301E28, .kmalloc 256 none, .kfree 0xFFFFFFFFC0300E28]

theorem slub_counts_mixed :
    Throughout (System.step someCaches somePages) (fun s call => ∀ next ∈ s.step someCaches somePages call, CountsRight someCaches next)
      (System.boot someCaches fun _ => 0) mixedSlabs :=
  (slub_counts someCaches somePages (fun _ => 0) mixedSlabs (by simp [mixedSlabs, twoSlabs, Roomy]) (by decide +kernel)).mpr (by decide +kernel)

-- An object of the older slab comes back and is taken again.
def spillCalls : List Call := twoSlabs ++ [.kfree 0xFFFFFFFFC0300E28, .kmalloc 256 none]

theorem spill_miscounts : ¬ Throughout (System.step someCaches somePages)
    (fun s call => ∀ next ∈ s.step someCaches somePages call, CountsRight someCaches next) (System.boot someCaches fun _ => 0) spillCalls := by
  intro right
  have met := boot_met someCaches somePages (fun _ => 0) spillCalls (by simp [spillCalls, twoSlabs, Roomy]) (by decide +kernel)
  have charges := (run_counted someCaches somePages spillCalls _ _ _ (boot_inv someCaches fun _ => 0)
    (fun _ _ _ member => absurd member List.not_mem_nil) met).mp right
  revert charges
  decide +kernel

end Ucore.Slub
