import Ucore.Slob.KmallocSafe

set_option autoImplicit false

namespace Ucore.Slob

open Ucore.Lib

namespace Heap

-- The blocks that the list leads to.
def OnList (h : Heap) (d : Nat) : Prop := ∃ rounds, h.next^[rounds] h.slobfree = d

def Lone (h : Heap) : Prop := h.next h.slobfree = h.slobfree

end Heap

-- The condition on the heap before a call: nothing is taken from the only block of the
-- list, a page leaves some block apart, and nothing is freed right before the only block.
def Spare (s : System) : Call → Prop
  | .kmalloc size page _ =>
      (s.heap.Lone → s.heap.units s.heap.slobfree < needed size) ∧
        ∀ a ∈ page, ∃ d, s.heap.OnList d ∧ d + s.heap.units d * slobUnit ≠ a ∧ a + pageSize ≠ d
  | .kfree block => s.heap.Lone → (freedBlock s.heap block).stop ≠ s.heap.slobfree

theorem on_list_member (h : Heap) (blocks : List Block) (listed : Listed h blocks) (d : Nat) (there : h.OnList d) : d ∈ blocks.map Block.addr := by
  obtain ⟨rounds, rfl⟩ := there
  induction rounds with
  | zero => exact listed.head
  | succ n ih =>
      rw [Function.iterate_succ_apply']
      exact cycle_member h.next _ listed.cycle _ ih

theorem path_reaches (next : Nat → Nat) (home start : Nat) (rest : List Nat) (path : (start :: rest).map next = rest ++ [home]) (d : Nat)
    (member : d ∈ start :: rest) : ∃ rounds, next^[rounds] start = d := by
  induction rest generalizing start with
  | nil => exact ⟨0, (List.mem_singleton.mp member).symm⟩
  | cons e rest ih =>
      rcases List.mem_cons.mp member with here | later
      · exact ⟨0, here.symm⟩
      · simp only [List.map_cons, List.cons_append, List.cons.injEq] at path
        obtain ⟨rounds, reached⟩ := ih e (by simpa using path.2) later
        exact ⟨rounds + 1, by rw [Function.iterate_succ_apply, path.1, reached]⟩

-- The list as it is seen from slobfree.
theorem listed_path (h : Heap) (blocks : List Block) (listed : Listed h blocks) :
    ∃ rest, (h.slobfree :: rest).map h.next = rest ++ [h.slobfree] ∧ h.slobfree ∉ rest ∧ ∀ d, d ∈ blocks.map Block.addr ↔ d ∈ h.slobfree :: rest := by
  obtain ⟨left, right, split⟩ := List.append_of_mem listed.head
  have cycle := listed.cycle
  rw [split] at cycle
  have sorted := sorted_nodup _ (addrs_sorted blocks listed.ascending listed.nonempty)
  rw [split] at sorted
  refine ⟨right ++ left, (cycle_cons h.next _ _).mp (cycle_turn h.next left (h.slobfree :: right) cycle), fun member => ?_, fun d => ?_⟩
  · refine (List.nodup_cons.mp (List.nodup_middle.mp sorted)).1 ?_
    simp only [List.mem_append] at member ⊢
    tauto
  · rw [split]
    simp only [List.mem_append, List.mem_cons]
    tauto

theorem single_head (h : Heap) (blocks : List Block) (listed : Listed h blocks) (d : Block) (single : blocks = [d]) : d.addr = h.slobfree := by
  have head := listed.head
  rw [single] at head
  exact (List.mem_singleton.mp head).symm

theorem lone_iff (h : Heap) (blocks : List Block) (listed : Listed h blocks) : h.Lone ↔ ∃ d, blocks = [d] ∧ d.addr = h.slobfree := by
  obtain ⟨rest, path, away, places⟩ := listed_path h blocks listed
  constructor
  · intro lone
    cases rest with
    | cons e others =>
        simp only [List.map_cons, List.cons_append, List.cons.injEq] at path
        exact absurd (path.1.symm.trans lone) fun same => away (by simp [same])
    | nil =>
        have only : ∀ d ∈ blocks, d.addr = h.slobfree := fun d member => by
          simpa using (places d.addr).mp (List.mem_map_of_mem member)
        have sorted := sorted_nodup _ (addrs_sorted blocks listed.ascending listed.nonempty)
        cases blocks with
        | nil => exact absurd listed.head (by simp)
        | cons d others =>
            cases others with
            | nil => exact ⟨d, rfl, only d (by simp)⟩
            | cons e more =>
                have same : d.addr = e.addr := (only d (by simp)).trans (only e (by simp)).symm
                simp [same] at sorted
  · rintro ⟨d, rfl, here⟩
    have onward := cycle_member h.next _ listed.cycle d.addr (by simp)
    rw [Heap.Lone, ← here]
    simpa using onward

theorem spare_iff (s : System) (blocks : List Block) (listed : Listed s.heap blocks) (call : Call) : Spare s call ↔ SpareBlocks s blocks call := by
  have lone := lone_iff s.heap blocks listed
  obtain ⟨rest, path, away, places⟩ := listed_path s.heap blocks listed
  have stop : ∀ d ∈ blocks, d.addr + s.heap.units d.addr * slobUnit = d.stop := fun d member => by rw [Block.stop, listed.sized d member]
  cases call with
  | kmalloc size page pages =>
      constructor
      · rintro ⟨spare, apart⟩
        refine ⟨fun d single => ?_, fun a given => ?_⟩
        · have here := single_head s.heap blocks listed d single
          rw [here]
          exact spare (lone.mpr ⟨d, single, here⟩)
        · obtain ⟨x, there, before, after⟩ := apart a given
          obtain ⟨d, member, rfl⟩ := List.mem_map.mp (on_list_member s.heap blocks listed x there)
          exact ⟨d, member, stop d member ▸ before, after⟩
      · rintro ⟨spare, apart⟩
        refine ⟨fun only => ?_, fun a given => ?_⟩
        · obtain ⟨d, single, here⟩ := lone.mp only
          rw [← here]
          exact spare d single
        · obtain ⟨d, member, before, after⟩ := apart a given
          exact ⟨d.addr, path_reaches s.heap.next s.heap.slobfree _ rest path d.addr ((places d.addr).mp (List.mem_map_of_mem member)),
            (stop d member).symm ▸ before, after⟩
  | kfree block =>
      constructor
      · intro spare d single
        have here := single_head s.heap blocks listed d single
        rw [here]
        exact spare (lone.mpr ⟨d, single, here⟩)
      · intro spare only
        obtain ⟨d, single, here⟩ := lone.mp only
        rw [← here]
        exact spare d single

def Careful (arena : Nat) (s : System) (call : Call) : Prop := Given arena s call ∧ Spare s call

theorem careful_run (arena : Nat) (units next : Nat → Nat) (bounded : arena + slobUnit ≤ 2 ^ 64) (calls : List Call) (s : System)
    (careful : Throughout System.step (Careful arena) (System.boot arena units next) calls)
    (ran : run System.step (System.boot arena units next) calls = some s) : ∃ blocks, Inv arena s blocks :=
  run_invariant System.step (Careful arena) (fun s => ∃ blocks, Inv arena s blocks)
    (fun s call next ⟨blocks, inv⟩ careful stepped => by
      obtain ⟨blocks', after, _⟩ := step_inv arena s next blocks call inv careful.1 ((spare_iff s blocks inv.sound.listed call).mp careful.2) stepped
      exact ⟨blocks', after⟩)
    calls (System.boot arena units next) s ⟨_, (boot_inv arena units next bounded).1⟩ careful ran

-- Runs whose requests are for a byte at least meet the condition.
theorem positive_careful (arena : Nat) (units next : Nat → Nat) (bounded : arena + slobUnit ≤ 2 ^ 64) (calls : List Call)
    (away : Throughout System.step (Away arena) (System.boot arena units next) calls)
    (valid : Throughout System.step (fun s call => ∀ block, call = .kfree block → (s.live.any fun grant => grant.pointer = block) = true)
      (System.boot arena units next) calls) : Throughout System.step (Careful arena) (System.boot arena units next) calls := by
  have general : ∀ (calls : List Call) (s : System), (∃ blocks, ArenaInv arena s blocks) → Throughout System.step (Away arena) s calls →
      Throughout System.step (fun s call => ∀ block, call = .kfree block → (s.live.any fun grant => grant.pointer = block) = true) s calls →
      Throughout System.step (Careful arena) s calls := by
    intro calls
    induction calls with
    | nil => exact fun _ _ _ _ => trivial
    | cons call rest ih =>
        intro s start away valid
        refine ⟨?_, fun after taken => ih after (arena_step arena s after call start away.1 taken) (away.2 after taken) (valid.2 after taken)⟩
        obtain ⟨blocks, inv, free⟩ := start
        exact ⟨away.1.1, (spare_iff s blocks inv.sound.listed call).mpr (arena_spares arena s blocks call inv free away.1.2 valid.1)⟩
  obtain ⟨inv, free⟩ := boot_inv arena units next bounded
  exact general calls _ ⟨_, inv, free⟩ away valid

-- The loops of slob_alloc and slob_free come to an end within loopBound rounds, and
-- slob_alloc takes one page at most.
def Ends (s : System) : Call → Prop
  | .kmalloc size page pages => kmalloc loopBound s.heap size page pages ≠ .error .outOfFuel ∧
      kmalloc loopBound s.heap size page pages ≠ .error .outOfPages
  | .kfree block => (s.live.any fun grant => grant.pointer = block) = true → kfree loopBound s.heap block ≠ .error .outOfFuel

theorem inv_ends (arena : Nat) (s : System) (blocks : List Block) (inv : Inv arena s blocks) (call : Call) (careful : Careful arena s call) : Ends s call := by
  have spare := (spare_iff s blocks inv.sound.listed call).mp careful.2
  cases call with
  | kmalloc size page pages =>
      by_cases fits : size + 2 * slobUnit < pageSize ∨ pageSize - slobUnit ≤ size
      · obtain ⟨pointer, heap, left, _, ran, _⟩ := kmalloc_inv arena s blocks inv size page pages fits careful.1 spare
        rw [Ends, ran]
        exact ⟨by simp, by simp⟩
      · have small : size < pageSize - slobUnit := by omega
        have exceeds : ¬ size + slobUnit + slobUnit < pageSize := by omega
        simp [Ends, kmalloc, small, slobAlloc, exceeds, Except.map]
  | kfree block =>
      intro held
      obtain ⟨heap, _, ran, _⟩ := kfree_inv arena s blocks inv block held spare
      rw [ran]
      simp

theorem kmalloc_loops_end (arena : Nat) (units next : Nat → Nat) (bounded : arena + slobUnit ≤ 2 ^ 64) :
    (∀ calls s, Throughout System.step (Careful arena) (System.boot arena units next) calls →
      run System.step (System.boot arena units next) calls = some s → ∀ call, Careful arena s call → Ends s call) ∧
    ∀ calls, Throughout System.step (Away arena) (System.boot arena units next) calls →
      Throughout System.step (fun s call => ∀ block, call = .kfree block → (s.live.any fun grant => grant.pointer = block) = true)
        (System.boot arena units next) calls →
      Throughout System.step (Careful arena) (System.boot arena units next) calls := by
  refine ⟨fun calls s careful ran call now => ?_, positive_careful arena units next bounded⟩
  obtain ⟨blocks, inv⟩ := careful_run arena units next bounded calls s careful ran
  exact inv_ends arena s blocks inv call now

theorem kmalloc_loops_end_page : Ends (System.boot 512 (fun _ => 0) fun _ => 0) (.kmalloc 100 (some 4096) none) := by
  have careful : Throughout System.step (Careful 512) (System.boot 512 (fun _ => 0) fun _ => 0) [.kmalloc 100 (some 4096) none] :=
    (kmalloc_loops_end 512 (fun _ => 0) (fun _ => 0) (by decide)).2 [.kmalloc 100 (some 4096) none]
      ⟨page_given 512 4096 _ 100 (by decide) (by decide) (by decide) (by simp [System.boot]) (by simp [System.boot]) (by decide), fun _ _ => trivial⟩
      ⟨fun _ same => (by cases same), fun _ _ => trivial⟩
  exact (kmalloc_loops_end 512 (fun _ => 0) (fun _ => 0) (by decide)).1 [] _ trivial rfl _ careful.1

-- kmalloc(0) is one unit, and the arena is the whole list: the arena is given away and
-- stays on the list. The search of the kfree that follows never meets its place.
theorem search_forever (h : Heap) (b : Nat) (round : h.next b = b) (fuel : Nat) : reinsertionPoint h b b fuel = .error .outOfFuel := by
  induction fuel with
  | zero => rfl
  | succ n ih =>
      have goesOn : ¬ Reinsert h b b := by
        simp only [Reinsert, round]
        omega
      rw [reinsertionPoint, if_neg goesOn, round, ih]

theorem empty_request_never_ends : ∃ s, run System.step (System.boot 512 (fun _ => 0) fun _ => 0) [.kmalloc 0 none none] = some s ∧
    s.live.map Grant.pointer = [528] ∧ s.heap.slobfree = 512 ∧ s.heap.next 512 = 512 ∧ (∀ bound, kfree bound s.heap 528 = .error .outOfFuel) ∧
    ¬ Ends s (.kfree 528) := by
  have trace : (run System.step (System.boot 512 (fun _ => 0) fun _ => 0) [.kmalloc 0 none none]).map
      (fun s => (s.live.map Grant.pointer, s.heap.slobfree, s.heap.next 512)) = some ([528], 512, 512) := by decide +kernel
  obtain ⟨s, ran, facts⟩ := Option.map_eq_some_iff.mp trace
  simp only [Prod.mk.injEq] at facts
  obtain ⟨live, head, round⟩ := facts
  have forever : ∀ bound, kfree bound s.heap 528 = .error .outOfFuel := by
    intro bound
    have start : kfree bound s.heap 528 = slobFree bound s.heap 512 0 := rfl
    rw [start, slobFree]
    simp only [ne_eq, not_true_eq_false, if_false, head, search_forever s.heap 512 round bound]
    rfl
  refine ⟨s, ran, live, head, round, forever, fun ends => ends ?_ (forever loopBound)⟩
  have member : 528 ∈ s.live.map Grant.pointer := by simp [live]
  obtain ⟨grant, inside, same⟩ := List.mem_map.mp member
  exact List.any_eq_true.mpr ⟨grant, inside, by simp [same]⟩

end Ucore.Slob
