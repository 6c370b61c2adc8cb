import Ucore.Slub.SlubSafe

set_option autoImplicit false

namespace Ucore.Slub

open Ucore.Lib

open Ucore.Lib.Memory

theorem init_cache_spec (caches idx : Nat) (m : Memory) :
    CacheInv caches idx (initCache caches m idx) [] [] ∧
      Only (fun a => cacheAt caches idx ≤ a ∧ a + 8 ≤ cacheAt caches idx + cacheBytes) m (initCache caches m idx) := by
  constructor
  · refine ⟨?_, ?_, (Links.ring_empty _ _).mpr ⟨?_, ?_⟩, (Links.ring_empty _ _).mpr ⟨?_, ?_⟩, by simp⟩ <;>
      simp [initCache, listInit, links, store, objSizeOf, objAlignOf, objsPerSlabOf, freeObjList, slabList, stateOf, Function.update_apply, Nat.add_assoc]
  · refine only_store _ m _ _ _ (only_store _ m _ _ _ (only_store _ m _ _ _ (only_store _ m _ _ _ (only_store _ m _ _ _ (only_store _ m _ _ _
      (only_store _ m _ _ _ (only_store _ m _ _ _ (only_refl _ m) ?_) ?_) ?_) ?_) ?_) ?_) ?_) ?_ <;>
      simp [objSizeOf, objAlignOf, objsPerSlabOf, freeObjList, slabList, stateOf, cacheBytes, Nat.add_assoc]

theorem slub_init_spec (caches count : Nat) (m : Memory) (idx : Nat) (less : idx < count) :
    CacheInv caches idx ((List.range count).foldl (initCache caches) m) [] [] := by
  induction count with
  | zero => omega
  | succ n ih =>
      rw [List.range_succ, List.foldl_append, List.foldl_cons, List.foldl_nil]
      obtain ⟨made, only⟩ := init_cache_spec caches n ((List.range n).foldl (initCache caches) m)
      by_cases last : idx = n
      · exact last ▸ made
      · have below := cache_below caches idx n (by omega)
        refine cache_keep caches idx _ _ [] [] _ (ih (by omega)) only fun a structural inside => ?_
        rcases structural_touch caches idx [] [] a structural with own | ⟨slab, member, _⟩ | ⟨node, member, _⟩
        · omega
        · cases member
        · cases member

theorem boot_inv (caches : Nat) (word : Nat → Nat) : Inv caches (System.boot caches word) (fun _ => []) fun _ => [] where
  layout := ⟨rfl, by simp, by simp, by simp, by simp⟩
  kept := fun idx known => slub_init_spec caches objCnt ⟨word, []⟩ idx known
  exact := by simp [liveOf, System.boot, allObjects]
  requests := by simp [System.boot]
  taken := by simp

-- The free lists and the objects in use, in every state of a run.
structure SlubInvariant (caches : Nat) (s : System) (slabs free : Nat → List Nat) : Prop where
  freeLists : ∀ idx < objCnt, Links.Ring s.memory.links (freeObjList (cacheAt caches idx)) (free idx)
  slabLists : ∀ idx < objCnt, Links.Ring s.memory.links (slabList (cacheAt caches idx)) ((slabs idx).map slabLink)
  exact : ∀ idx < objCnt, (free idx ++ liveOf s idx).Perm (allObjects slabs idx) ∧ (allObjects slabs idx).Nodup
  apart : s.live.Pairwise fun first second => Block.Apart first.block second.block
  enough : ∀ o ∈ s.live, requestIdx o.size = some o.idx ∧ o.size ≤ o.block.size

-- What kmalloc and kfree write is of no object that is in use before and after; kmalloc returns.
def Intact (caches npage : Nat) (s : System) : Call → Prop
  | .kmalloc size page => ∃ next, s.step caches npage (.kmalloc size page) = some next ∧
      ∀ o ∈ s.live, o ∈ next.live → ∀ a ∈ next.memory.written, Block.Apart ⟨a, 8⟩ o.block
  | .kfree obj => ∀ next, s.step caches npage (.kfree obj) = some next → ∀ o ∈ s.live, o ∈ next.live → ∀ a ∈ next.memory.written, Block.Apart ⟨a, 8⟩ o.block
  | .use _ _ _ => True

-- The condition: there is no page for objects of the smallest size.
def Roomy : Call → Prop
  | .kmalloc size page => 1 ≤ size → size ≤ 8 → page = none
  | _ => True

theorem spares_apart (live : List Object) (word : Nat → Nat) (after : Memory) (spared : Spares live ⟨word, []⟩ after) (o : Object) (member : o ∈ live) (a : Nat)
    (inLog : a ∈ after.written) : Block.Apart ⟨a, 8⟩ o.block := by
  rcases spared.written a inLog with nothing | apart
  · cases nothing
  · have away := apart o member
    intro byte both
    simp only [Block.Holds, Block.stop, Object.block] at both
    omega

section Runs

variable (caches npage : Nat)

theorem inv_step (s next : System) (call : Call) (inv : ∃ slabs free, Inv caches s slabs free) (condition : Given caches s call ∧ Roomy call)
    (stepped : s.step caches npage call = some next) : ∃ slabs free, Inv caches next slabs free := by
  obtain ⟨slabs, free, inv⟩ := inv
  obtain ⟨given, roomy⟩ := condition
  cases call with
  | kmalloc size page =>
      obtain ⟨found, slabs', free', taken, after, _⟩ := kmalloc_inv caches npage s slabs free inv size page roomy given
      obtain rfl := Option.some.inj (taken.symm.trans stepped)
      exact ⟨slabs', free', after⟩
  | kfree obj =>
      obtain ⟨free', after, _⟩ := kfree_inv caches npage s slabs free inv obj next stepped
      exact ⟨slabs, free', after⟩
  | use obj index value => exact ⟨slabs, free, use_inv caches s slabs free inv npage obj index value next stepped⟩

theorem live_distinct (live : List Object) (known : ∀ o ∈ live, o.idx < objCnt)
    (nodup : ∀ idx < objCnt, ((live.filter fun o => o.idx = idx).map Object.addr).Nodup) :
    live.Pairwise fun first second => first.idx = second.idx → first.addr ≠ second.addr := by
  induction live with
  | nil => exact List.Pairwise.nil
  | cons o rest ih =>
      refine List.pairwise_cons.mpr ⟨fun other member same equal => ?_, ih (fun o member => known o (List.mem_cons_of_mem _ member)) fun idx inside => ?_⟩
      · have whole := nodup o.idx (known o (by simp))
        rw [List.filter_cons_of_pos (by simp), List.map_cons, List.nodup_cons] at whole
        exact whole.1 (equal ▸ List.mem_map_of_mem (List.mem_filter.mpr ⟨member, by simp [same]⟩))
      · refine (nodup idx inside).sublist (List.Sublist.map _ (List.Sublist.filter _ (List.sublist_cons_self o rest)))

theorem slub_invariant_of (s : System) (slabs free : Nat → List Nat) (inv : Inv caches s slabs free) : SlubInvariant caches s slabs free where
  freeLists := fun idx known => (inv.kept idx known).freeRing
  slabLists := fun idx known => (inv.kept idx known).slabRing
  exact := fun idx known => ⟨inv.exact idx known, all_objects_nodup caches slabs inv.layout idx known⟩
  apart := by
    have distinct := live_distinct s.live (fun o member => (live_in caches s slabs free inv o member).1) fun idx known =>
      List.Nodup.of_append_right ((inv.exact idx known).nodup_iff.mpr (all_objects_nodup caches slabs inv.layout idx known))
    refine distinct.imp_of_mem fun {first second} inFirst inSecond differ byte both => ?_
    obtain ⟨known, left, _⟩ := live_in caches s slabs free inv first inFirst
    obtain ⟨also, right, _⟩ := live_in caches s slabs free inv second inSecond
    obtain ⟨sameIdx, sameAddr⟩ := object_unique caches slabs inv.layout first.idx second.idx first.addr second.addr byte known also left right both.1 both.2
    exact differ sameIdx sameAddr
  enough := fun o member => ⟨inv.requests o member, (request_idx_spec o.size o.idx (inv.requests o member)).2.2.1⟩

theorem intact_of (s : System) (slabs free : Nat → List Nat) (inv : Inv caches s slabs free) (call : Call) (given : Given caches s call) (roomy : Roomy call) :
    Intact caches npage s call := by
  cases call with
  | kmalloc size page =>
      obtain ⟨next, _, _, taken, _, spared⟩ := kmalloc_inv caches npage s slabs free inv size page roomy given
      exact ⟨next, taken, fun o before _ a inLog => spares_apart s.live s.memory.word next.memory spared o before a inLog⟩
  | kfree obj =>
      intro next stepped o _ after a inLog
      obtain ⟨_, _, spared⟩ := kfree_inv caches npage s slabs free inv obj next stepped
      exact spares_apart next.live s.memory.word next.memory spared o after a inLog
  | use obj index value => trivial

theorem reached_inv (word : Nat → Nat) (calls : List Call) (s : System) (roomy : ∀ call ∈ calls, Roomy call)
    (given : Throughout (System.step caches npage) (Given caches) (System.boot caches word) calls)
    (ran : run (System.step caches npage) (System.boot caches word) calls = some s) : ∃ slabs free, Inv caches s slabs free := by
  have met : Throughout (System.step caches npage) (fun s call => Given caches s call ∧ Roomy call) (System.boot caches word) calls :=
    (throughout_and _ _ _ _ _).mpr ⟨given, throughout_forall _ Roomy calls _ roomy⟩
  exact run_invariant _ _ (fun s => ∃ slabs free, Inv caches s slabs free)
    (fun s call next inv condition stepped => inv_step caches npage s next call inv condition stepped) calls _ s ⟨_, _, boot_inv caches word⟩ met ran

-- Any run without a page for a request of 1 to 8 bytes, with pages that are not in use.
theorem slub_intact (word : Nat → Nat) (calls : List Call) (s : System) (roomy : ∀ call ∈ calls, Roomy call)
    (given : Throughout (System.step caches npage) (Given caches) (System.boot caches word) calls)
    (ran : run (System.step caches npage) (System.boot caches word) calls = some s) :
    (∃ slabs free, SlubInvariant caches s slabs free) ∧ ∀ call, Given caches s call → Roomy call → Intact caches npage s call := by
  obtain ⟨slabs, free, inv⟩ := reached_inv caches npage word calls s roomy given ran
  exact ⟨⟨slabs, free, slub_invariant_of caches s slabs free inv⟩, fun call now fits => intact_of caches npage s slabs free inv call now fits⟩

end Runs

-- A kernel of 128 MiB with its caches in the page before those of the free pages.
def someCaches : Nat := 0xFFFFFFFFC0207000
def somePages : Nat := 0x88000

def mixedCalls : List Call :=
  [.kmalloc 20 (some 0x300), .kmalloc 256 (some 0x302), .use 0xFFFFFFFFC0300FC8 2 7, .kmalloc 9 (some 0x301), .kfree 0xFFFFFFFFC0300FC8]

theorem slub_intact_mixed : ∃ s, run (System.step someCaches somePages) (System.boot someCaches fun _ => 0) mixedCalls = some s ∧
    s.live.map Object.addr = [0xFFFFFFFFC0301FE8, 0xFFFFFFFFC0302E28] ∧
    (∃ slabs free, SlubInvariant someCaches s slabs free) ∧ Intact someCaches somePages s (.kfree 0xFFFFFFFFC0301FE8) := by
  have trace : (run (System.step someCaches somePages) (System.boot someCaches fun _ => 0) mixedCalls).map (fun s => s.live.map Object.addr) =
      some [0xFFFFFFFFC0301FE8, 0xFFFFFFFFC0302E28] := by decide +kernel
  have given : Throughout (System.step someCaches somePages) (Given someCaches) (System.boot someCaches fun _ => 0) mixedCalls := by decide +kernel
  obtain ⟨s, ran, live⟩ := Option.map_eq_some_iff.mp trace
  obtain ⟨invariant, intact⟩ := slub_intact someCaches somePages (fun _ => 0) mixedCalls s (by simp [mixedCalls, Roomy]) given ran
  exact ⟨s, ran, live, invariant, intact (.kfree 0xFFFFFFFFC0301FE8) trivial trivial⟩

-- The nodes of a list of eight-byte objects lie over each other: what is threaded
-- later takes the next of the object before.
theorem slub_overlap : (∃ s, run (System.step someCaches somePages) (System.boot someCaches fun _ => 0) [.kmalloc 8 (some 0x300)] = some s ∧
      ¬ ∃ slabs free, SlubInvariant someCaches s slabs free) ∧
    ∃ s, run (System.step someCaches somePages) (System.boot someCaches fun _ => 0) [.kmalloc 8 (some 0x300), .kmalloc 8 none] = some s ∧
      s.live.map Object.addr = [0xFFFFFFFFC0300FF0, 0xFFFFFFFFC0300FF8] ∧ ¬ Intact someCaches somePages s (.kfree 0xFFFFFFFFC0300FF0) := by
  constructor
  · have trace : (run (System.step someCaches somePages) (System.boot someCaches fun _ => 0) [.kmalloc 8 (some 0x300)]).map (fun s => (s.live, s.memory.load (someCaches + 32),
        s.memory.load (s.memory.load (someCaches + 32) + 8))) = some ([⟨0xFFFFFFFFC0300FF8, 8⟩], 0xFFFFFFFFC0300FF0, someCaches + 24) := by decide +kernel
    obtain ⟨s, ran, facts⟩ := Option.map_eq_some_iff.mp trace
    simp only [Prod.mk.injEq] at facts
    obtain ⟨live, first, second⟩ := facts
    refine ⟨s, ran, ?_⟩
    rintro ⟨slabs, free, inv⟩
    have ring := inv.freeLists 0 (by decide)
    have counted := (inv.exact 0 (by decide)).1.length_eq
    have held : liveOf s 0 = [0xFFFFFFFFC0300FF8] := by
      rw [liveOf, live]
      decide
    have cut : ∀ list : List Nat, (list.flatMap (objects 0)).length = 507 * list.length := by
      intro list
      induction list with
      | nil => rfl
      | cons slab rest ih =>
          have one : (objects 0 slab).length = 507 := by simp [objects, objsPerSlab, pageSize, slabHeaderSize, objSize, objSizes]
          rw [List.flatMap_cons, List.length_append, one, ih, List.length_cons]
          omega
    rw [held, List.length_append, List.length_singleton, allObjects, cut] at counted
    cases listed : free 0 with
    | nil =>
        rw [listed, List.length_nil] at counted
        omega
    | cons n rest =>
        rw [listed] at ring counted
        cases rest with
        | nil =>
            simp only [List.length_cons, List.length_nil] at counted
            omega
        | cons next others =>
            have start : s.memory.load (someCaches + 32) = n := ring_first s.memory _ n (next :: others) ring
            have onward : s.memory.load (n + 8) = next := ring.1.2.2.1
            rw [start, onward] at second
            have apart := (List.nodup_cons.mp ring.2).1
            exact apart (by simp [second, freeObjList, cacheAt])
  · have trace : (run (System.step someCaches somePages) (System.boot someCaches fun _ => 0) [.kmalloc 8 (some 0x300), .kmalloc 8 none]).map (fun s => (s.live,
        (s.step someCaches somePages (.kfree 0xFFFFFFFFC0300FF0)).map fun next => (next.live, next.memory.written.contains 0xFFFFFFFFC0300FF8))) =
        some ([⟨0xFFFFFFFFC0300FF0, 8⟩, ⟨0xFFFFFFFFC0300FF8, 8⟩], some ([⟨0xFFFFFFFFC0300FF8, 8⟩], true)) := by decide +kernel
    obtain ⟨s, ran, facts⟩ := Option.map_eq_some_iff.mp trace
    simp only [Prod.mk.injEq] at facts
    obtain ⟨live, freed⟩ := facts
    obtain ⟨next, stepped, after⟩ := Option.map_eq_some_iff.mp freed
    simp only [Prod.mk.injEq, List.contains_iff_mem] at after
    refine ⟨s, ran, by rw [live]; rfl, fun intact => ?_⟩
    exact intact next stepped ⟨0xFFFFFFFFC0300FF8, 8⟩ (by simp [live]) (by simp [after.1]) 0xFFFFFFFFC0300FF8 after.2 0xFFFFFFFFC0300FF8
      ⟨⟨Nat.le_refl _, by decide⟩, Nat.le_refl _, by decide⟩

end Ucore.Slub
